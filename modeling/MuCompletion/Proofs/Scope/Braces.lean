import MuCompletion.Proofs.Scope.Placed
import MuCompletion.Proofs.Scope.Rooted

/-! # Scopes and braces

The braces of a text match like brackets, whatever else the tokens say: a closing brace matches the
last opening one that is still open, and is passed over if there is none. The scopes inside the module
are the pairs of matching braces, nested as the pairs are. What waits when a brace comes decides only
where the scope begins.
-/

namespace MuCompletion

open ScopeBuilder

/-- A pair of braces with the pairs between them. A brace that nothing closes has the end of the text
for its partner. -/
inductive BracePair where
  | node (opening : Token) (closing : Option Token) (inside : List BracePair)

namespace BracePair

mutual

/-- The opening braces in the order in which they stand. -/
def openings : BracePair → List Token
  | node opening _ inside => opening :: openingsAll inside

def openingsAll : List BracePair → List Token
  | [] => []
  | pair :: rest => openings pair ++ openingsAll rest

end

@[simp] theorem openingsAll_append (first second : List BracePair) :
    openingsAll (first ++ second) = openingsAll first ++ openingsAll second := by
  induction first with
  | nil => rfl
  | cons pair rest ih => simp only [List.cons_append, openingsAll, ih, List.append_assoc]

end BracePair

/-- The pairs of matching braces among tokens that leave no brace open. At depth zero, where
`outside` holds, closing braces without a partner may stand among them. -/
inductive Balanced : Bool → List Token → List BracePair → Prop where
  | nil {outside : Bool} : Balanced outside [] []
  | other {outside : Bool} {token : Token} (opening : token.mark? ≠ some "\x7b")
      (closing : token.mark? ≠ some "\x7d") : Balanced outside [token] []
  | stray {token : Token} (closing : token.mark? = some "\x7d") : Balanced true [token] []
  | pair {outside : Bool} {opening closing : Token} {tokens : List Token} {inside : List BracePair}
      (opens : opening.mark? = some "\x7b") (closes : closing.mark? = some "\x7d")
      (between : Balanced false tokens inside) :
      Balanced outside (opening :: tokens ++ [closing]) [.node opening (some closing) inside]
  | append {outside : Bool} {first second : List Token} {pairs pairs' : List BracePair}
      (before : Balanced outside first pairs) (after : Balanced outside second pairs') :
      Balanced outside (first ++ second) (pairs ++ pairs')

/-- An opening brace without a partner and all that follows it, or nothing. -/
inductive Unclosed : List Token → List BracePair → Prop where
  | nil : Unclosed [] []
  | opening {opening : Token} {tokens rest : List Token} {inside last : List BracePair}
      (opens : opening.mark? = some "\x7b") (between : Balanced false tokens inside)
      (later : Unclosed rest last) :
      Unclosed (opening :: tokens ++ rest) [.node opening none (inside ++ last)]

/-- The braces of a text match in these pairs. -/
def Matched (tokens : List Token) (pairs : List BracePair) : Prop :=
  ∃ closed rest inside last, tokens = closed ++ rest ∧ pairs = inside ++ last ∧
    Balanced true closed inside ∧ Unclosed rest last

/-! ## There is one matching -/

theorem Balanced.openings {outside : Bool} {tokens : List Token} {pairs : List BracePair}
    (balanced : Balanced outside tokens pairs) :
    BracePair.openingsAll pairs = tokens.filter (·.mark? = some "\x7b") := by
  induction balanced with
  | nil => rfl
  | other opening closing => simp [BracePair.openingsAll, opening]
  | stray closing => simp [BracePair.openingsAll, closing]
  | pair opens closes between ih => simp [BracePair.openingsAll, BracePair.openings, opens, closes, ih]
  | append before after ih ih' => rw [BracePair.openingsAll_append, ih, ih', List.filter_append]

theorem Unclosed.openings {tokens : List Token} {pairs : List BracePair}
    (unclosed : Unclosed tokens pairs) :
    BracePair.openingsAll pairs = tokens.filter (·.mark? = some "\x7b") := by
  induction unclosed with
  | nil => rfl
  | opening opens between later ih =>
      simp [BracePair.openingsAll, BracePair.openings, opens, between.openings, ih]

theorem Matched.openings {tokens : List Token} {pairs : List BracePair}
    (matched : Matched tokens pairs) :
    BracePair.openingsAll pairs = tokens.filter (·.mark? = some "\x7b") := by
  obtain ⟨closed, rest, inside, last, rfl, rfl, balanced, unclosed⟩ := matched
  rw [BracePair.openingsAll_append, balanced.openings, unclosed.openings, List.filter_append]

/-- Braces read from left to right: the pairs at the present depth, newest first, and the braces that
are open, each with the pairs before it. -/
structure BraceReader where
  pairs : List BracePair
  opened : List (Token × List BracePair)

namespace BraceReader

def read (reader : BraceReader) (token : Token) : BraceReader :=
  if token.mark? = some "\x7b" then ⟨[], (token, reader.pairs) :: reader.opened⟩
  else if token.mark? = some "\x7d" then
    match reader.opened with
    | [] => reader
    | (opening, before) :: opened =>
      ⟨.node opening (some token) reader.pairs.reverse :: before, opened⟩
  else reader

/-- All pairs, when the text ends. -/
def finish (pairs : List BracePair) : List (Token × List BracePair) → List BracePair
  | [] => pairs.reverse
  | (opening, before) :: opened => finish (.node opening none pairs.reverse :: before) opened

theorem foldl_read_balanced {outside : Bool} {tokens : List Token} {pairs : List BracePair}
    (balanced : Balanced outside tokens pairs) (reader : BraceReader)
    (depth : outside = true → reader.opened = []) :
    tokens.foldl read reader = ⟨pairs.reverse ++ reader.pairs, reader.opened⟩ := by
  induction balanced generalizing reader with
  | nil => rfl
  | other opening closing => simp [read, opening, closing]
  | stray closing =>
      obtain ⟨found, opened⟩ := reader
      obtain rfl : opened = [] := depth rfl
      simp [read, closing]
  | @pair _ opening closing tokens inside opens closes between ih =>
      have within := ih ⟨[], (opening, reader.pairs) :: reader.opened⟩ (by simp)
      simp [read, opens, closes] at within ⊢
      simp [within]
  | @append _ first second pairs pairs' before after ih ih' =>
      have later := ih' ⟨pairs.reverse ++ reader.pairs, reader.opened⟩ depth
      rw [List.foldl_append, ih reader depth, later]
      simp

theorem finish_read_unclosed {tokens : List Token} {pairs : List BracePair}
    (unclosed : Unclosed tokens pairs) (reader : BraceReader) :
    finish (tokens.foldl read reader).pairs (tokens.foldl read reader).opened =
      finish (pairs.reverse ++ reader.pairs) reader.opened := by
  induction unclosed generalizing reader with
  | nil => rfl
  | @opening opening tokens rest inside last opens between later ih =>
      have begun : reader.read opening = ⟨[], (opening, reader.pairs) :: reader.opened⟩ := by
        simp [read, opens]
      rw [List.cons_append, List.foldl_cons, List.foldl_append, begun,
        foldl_read_balanced between _ (by simp), ih]
      simp [finish]

end BraceReader

theorem Matched.unique {tokens : List Token} {pairs pairs' : List BracePair}
    (matched : Matched tokens pairs) (matched' : Matched tokens pairs') : pairs = pairs' := by
  -- Reading the tokens finds the pairs of any matching.
  have found {pairs : List BracePair} (matched : Matched tokens pairs) :
      pairs = BraceReader.finish (tokens.foldl BraceReader.read ⟨[], []⟩).pairs
        (tokens.foldl BraceReader.read ⟨[], []⟩).opened := by
    obtain ⟨closed, rest, inside, last, rfl, rfl, balanced, unclosed⟩ := matched
    rw [List.foldl_append, BraceReader.foldl_read_balanced balanced ⟨[], []⟩ fun _ => rfl,
      BraceReader.finish_read_unclosed unclosed]
    simp [BraceReader.finish]
  rw [found matched, ← found matched']

/-! ## Scopes that follow pairs -/

/-- Where a scope begins: a block at its brace, any other at the keyword of its declaration, and no
brace stands between the keyword and its own. -/
def Begins (tokens : List Token) (opening : Token) (kind : ScopeKind) (start : Nat) : Prop :=
  kind = .block ∧ start = opening.span.start ∨
    kind ≠ .block ∧ ∃ before keyword between after,
      tokens = before ++ keyword :: between ++ opening :: after ∧ keyword.Heads kind ∧
        start = keyword.span.start ∧
        ∀ token ∈ between, token.mark? ≠ some "\x7b" ∧ token.mark? ≠ some "\x7d"

/-- The tree is that of a pair of braces in a text of `length` bytes, and so are the trees inside it
of the pairs inside, one for each. -/
inductive Follows (tokens : List Token) (length : Nat) : BracePair → ScopeTree → Prop where
  | node {opening : Token} {closing : Option Token} {inside : List BracePair} {entry : ScopeEntry}
      {branches : List ScopeTree} (owned : entry.head.kind ≠ .«module»)
      (begins : Begins tokens opening entry.head.kind entry.span.start)
      (closed : entry.head.closed = closing.isSome)
      (ends : entry.span.stop = (closing.map (·.span.stop)).getD length)
      (nested : List.Forall₂ (Follows tokens length) inside branches) :
      Follows tokens length (.node opening closing inside) (.node entry branches)

/-- The scope at `start` follows the pair, however it is numbered. -/
def Stands (tokens : List Token) (length : Nat) (pair : BracePair) (start : Nat) (scope : Scope) :
    Prop :=
  ∀ tree, Placed start scope tree → Follows tokens length pair tree

/-- The complete scopes in an open scope follow the pairs. -/
def Frame.Holds (tokens : List Token) (length : Nat) (frame : Frame) (pairs : List BracePair) : Prop :=
  List.Forall₂ (fun pair child => Stands tokens length pair (frame.start + child.1) child.2) pairs
    frame.children.reverse

section

variable {whole : List Token} {length : Nat}

theorem follows_branches {start : Nat} {pairs : List BracePair} {children : List (Nat × Scope)}
    {branches : List ScopeTree}
    (stands : List.Forall₂ (fun pair child => Stands whole length pair (start + child.1) child.2)
      pairs children)
    (placed : List.Forall₂ (fun child branch => Placed (start + child.1) child.2 branch) children
      branches) :
    List.Forall₂ (Follows whole length) pairs branches := by
  induction stands generalizing branches with
  | nil =>
      cases placed
      exact .nil
  | cons stands _ ih =>
      cases placed with
      | cons placed later => exact .cons (stands _ placed) (ih later)

theorem Frame.Holds.stands {frame : Frame} {pairs : List BracePair} {opening : Token} {stop : Nat}
    (closing : Option Token) (holds : frame.Holds whole length pairs)
    (owned : frame.kind ≠ .«module») (begins : Begins whole opening frame.kind frame.start)
    (after : frame.start ≤ stop) (ends : stop = (closing.map (·.span.stop)).getD length) :
    Stands whole length (.node opening closing pairs) frame.start
      (frame.finish stop closing.isSome) := by
  intro tree placed
  have head := placed.head
  have span := placed.span
  have branches := follows_branches holds placed.branches
  cases tree with
  | node entry trees =>
      simp only [ScopeTree.entry] at head span
      refine .node ?_ ?_ ?_ ?_ branches
      · rw [head]
        exact owned
      · rw [head, span]
        exact begins
      · rw [head]
        rfl
      · rw [span, ← ends]
        exact Nat.add_sub_cancel' after

/-! ## Reading braces -/

/-- What was read as braces in the innermost open scope and in those around it: each is open since
its brace, and all that follows the brace at its depth is balanced. -/
inductive Stacked (whole : List Token) (length : Nat) : List Token → Frame → List Frame → Prop where
  | bottom {tokens : List Token} {pairs : List BracePair} {frame : Frame} (begins : frame.start = 0)
      (owned : frame.kind = .«module») (balanced : Balanced true tokens pairs)
      (holds : frame.Holds whole length pairs) : Stacked whole length tokens frame []
  | inner {before tokens : List Token} {opening : Token} {pairs : List BracePair}
      {frame around : Frame} {outer : List Frame} (opens : opening.mark? = some "\x7b")
      (owned : frame.kind ≠ .«module») (begins : Begins whole opening frame.kind frame.start)
      (later : around.start ≤ frame.start) (balanced : Balanced false tokens pairs)
      (holds : frame.Holds whole length pairs) (outside : Stacked whole length before around outer) :
      Stacked whole length (before ++ opening :: tokens) frame (around :: outer)

variable {tokens more : List Token} {frame frame' : Frame} {outer : List Frame}
  {pairs pairs' : List BracePair}

theorem Frame.Holds.extend (extra : List (Nat × Scope)) (holds : frame.Holds whole length pairs)
    (start : frame'.start = frame.start)
    (children : frame'.children.reverse = frame.children.reverse ++ extra)
    (follow : List.Forall₂ (fun pair child => Stands whole length pair (frame.start + child.1) child.2)
      pairs' extra) : frame'.Holds whole length (pairs ++ pairs') := by
  rw [Frame.Holds, children, start]
  exact List.rel_append holds follow

theorem Stacked.extend (extra : List (Nat × Scope)) (stacked : Stacked whole length tokens frame outer)
    (balanced : Balanced outer.isEmpty more pairs) (start : frame'.start = frame.start)
    (kind : frame'.kind = frame.kind)
    (children : frame'.children.reverse = frame.children.reverse ++ extra)
    (follow : List.Forall₂ (fun pair child => Stands whole length pair (frame.start + child.1) child.2)
      pairs extra) : Stacked whole length (tokens ++ more) frame' outer := by
  cases stacked with
  | bottom begins owned before holds =>
      exact .bottom (start.trans begins) (kind.trans owned) (before.append balanced)
        (holds.extend extra start children follow)
  | inner opens owned begins later before holds outside =>
      rw [List.append_assoc, List.cons_append]
      refine .inner opens (kind ▸ owned) ?_ (start ▸ later) (before.append balanced)
        (holds.extend extra start children follow) outside
      rw [start, kind]
      exact begins

/-- The tokens of the head of a declaration: its keyword, then no brace. -/
def Awaits (tokens : List Token) (declaration : PendingDeclaration) : Prop :=
  ∃ before keyword between, tokens = before ++ keyword :: between ∧
    keyword.Heads declaration.scopeKind ∧ declaration.start = keyword.span.start ∧
    ∀ token ∈ between, token.mark? ≠ some "\x7b" ∧ token.mark? ≠ some "\x7d"

/-- What the tokens say of the braces in the builder that has read them. -/
structure Braced (whole : List Token) (length : Nat) (tokens : List Token) (builder : ScopeBuilder) :
    Prop where
  stacked : Stacked whole length tokens builder.frame builder.outer
  waiting : ∀ declaration, builder.pending = .declaration declaration → Awaits tokens declaration

namespace Braced

variable {builder : ScopeBuilder} {token : Token} {later : List Token} {stop : Nat}

theorem begins_opened (braced : Braced whole length tokens builder)
    (split : tokens ++ token :: later = whole) :
    (builder.opened token).kind ≠ .«module» ∧
      Begins whole token (builder.opened token).kind (builder.opened token).start := by
  cases waits : builder.pending with
  | nothing | binding =>
      simp only [ScopeBuilder.opened, waits]
      exact ⟨by simp [Frame.opening], .inl ⟨rfl, rfl⟩⟩
  | declaration declaration =>
      obtain ⟨before, keyword, between, rfl, heads, begins, quiet⟩ :=
        braced.waiting declaration waits
      have kind : (builder.opened token).kind = declaration.scopeKind := by
        simp only [ScopeBuilder.opened, waits, PendingDeclaration.kind_frame_endSegment]
      have start : (builder.opened token).start = keyword.span.start := by
        simp only [ScopeBuilder.opened, waits, PendingDeclaration.start_frame_endSegment, begins]
      rw [kind, start]
      exact ⟨heads.kind_ne.1, .inr ⟨heads.kind_ne.2, before, keyword, between, later, split.symm,
        heads, rfl, quiet⟩⟩

theorem stacked_closing (braced : Braced whole length tokens builder)
    (closing : token.mark? = some "\x7d") (after : builder.frame.start ≤ token.span.stop) :
    Stacked whole length (tokens ++ [token]) (builder.close token.span.stop).frame
      (builder.close token.span.stop).outer := by
  obtain ⟨frame, outer, pending, comments, reattached⟩ := builder
  cases braced.stacked with
  | bottom begins owned balanced holds =>
      have stacked : Stacked whole length tokens frame [] := .bottom begins owned balanced holds
      exact stacked.extend [] (.stray closing) rfl rfl (List.append_nil _).symm .nil
  | @inner before inside opening pairs _ around outer opens owned begins later balanced holds
      outside =>
      have stands := holds.stands (some token) owned begins after rfl
      rw [List.append_assoc, List.cons_append]
      refine outside.extend [(frame.start - around.start, frame.finish token.span.stop true)]
        (.pair opens closing balanced) rfl rfl (by simp [close, Frame.attach]) ?_
      refine .cons ?_ .nil
      have place : around.start + (frame.start - around.start) = frame.start :=
        Nat.add_sub_cancel' later
      rw [place]
      exact stands

theorem stacked_quiet (braced : Braced whole length tokens builder)
    (opening : token.mark? ≠ some "\x7b") (closing : token.mark? ≠ some "\x7d") :
    Stacked whole length (tokens ++ [token]) (builder.read token).frame
      (builder.read token).outer := by
  have quiet := @read_quiet builder token opening closing
  rw [quiet.outer]
  refine braced.stacked.extend [] (.other opening closing) ?_ ?_ ?_ .nil <;>
    rcases quiet.frame with same | ⟨-, kind, documentation, declared⟩ <;> simp [*, Frame.declare]

theorem waiting_read (braced : Braced whole length tokens builder) :
    ∀ next, (builder.read token).pending = .declaration next → Awaits (tokens ++ [token]) next := by
  refine ScopeBuilder.waiting_read braced.waiting (fun next opening begun => ?_)
    (fun declaration next opening closing awaits goesOn => ?_)
  · obtain ⟨heads, begins⟩ := Token.heads_of_begin? begun
    exact ⟨tokens, token, [], rfl, heads, begins, by simp⟩
  · obtain ⟨before, keyword, between, rfl, heads, begins, quiet⟩ := awaits
    obtain ⟨start, -, -, kind⟩ := PendingDeclaration.same_next? goesOn
    refine ⟨before, keyword, between ++ [token], by simp, kind ▸ heads, start.trans begins, ?_⟩
    intro other member
    rcases List.mem_append.mp member with inside | here
    · exact quiet other inside
    · rw [List.mem_singleton.mp here]
      exact ⟨opening, closing⟩

theorem step (braced : Braced whole length tokens builder) (split : tokens ++ token :: later = whole)
    (grounded : Grounded (tokens ++ [token]) stop (builder.read token))
    (after : builder.frame.start ≤ token.span.stop) :
    Braced whole length (tokens ++ [token]) (builder.read token) where
  waiting := braced.waiting_read
  stacked := by
    by_cases opening : token.mark? = some "\x7b"
    · have order := @Grounded.start_le _ _ _ grounded builder.frame builder.outer
      rw [read_opening opening] at order ⊢
      obtain ⟨owned, begins⟩ := braced.begins_opened split
      have empty : Frame.Holds whole length (builder.opened token) [] := by
        simp [Frame.Holds, children_opened]
      exact .inner opening owned begins (order rfl) .nil empty braced.stacked
    · by_cases closing : token.mark? = some "\x7d"
      · rw [read_closing closing]
        exact braced.stacked_closing closing after
      · exact braced.stacked_quiet opening closing

theorem initial : Braced whole length [] initial where
  stacked := .bottom rfl rfl .nil .nil
  waiting := fun declaration waits => by simp [ScopeBuilder.initial] at waits

theorem run (tiles : Tiles 0 whole stop) : Braced whole length whole (whole.foldl read .initial) := by
  have both := @foldl_read_of_step
    (fun before stop builder => Grounded before stop builder ∧ Braced whole length before builder)
    whole stop tiles ⟨Grounded.initial, initial⟩
  refine (both ?_).2
  rintro before token after start builder split here filled ⟨grounded, braced⟩
  have next := grounded.step here filled
  have begins : builder.frame.start ≤ token.span.stop := by
    have before := grounded.start_le_stop
    omega
  exact ⟨next, braced.step split next begins⟩

end Braced

theorem Stacked.finish {rest : List Token} {last : List BracePair} (extra : List (Nat × Scope))
    (stacked : Stacked whole length tokens frame outer) (after : frame.start ≤ length)
    (unclosed : Unclosed rest last) (start : frame'.start = frame.start)
    (kind : frame'.kind = frame.kind)
    (children : frame'.children.reverse = frame.children.reverse ++ extra)
    (follow : List.Forall₂ (fun pair child => Stands whole length pair (frame.start + child.1) child.2)
      last extra) :
    ∃ pairs, Matched (tokens ++ rest) pairs ∧
      (ScopeBuilder.finish length frame' outer).head.kind = .«module» ∧
      List.Forall₂ (fun pair child => Stands whole length pair (0 + child.1) child.2) pairs
        (ScopeBuilder.finish length frame' outer).children := by
  induction stacked generalizing frame' rest last extra with
  | @bottom tokens pairs frame begins owned balanced holds =>
      refine ⟨pairs ++ last, ⟨tokens, rest, pairs, last, rfl, rfl, balanced, unclosed⟩,
        kind.trans owned, ?_⟩
      have holds' := holds.extend extra start children follow
      rw [Frame.Holds, start, begins] at holds'
      exact holds'
  | @inner before tokens opening pairs frame around outer opens owned begins later balanced holds
      outside ih =>
      have holds' := holds.extend extra start children follow
      have stands := holds'.stands none (kind ▸ owned) (by rw [start, kind]; exact begins)
        (start ▸ after) rfl
      have place : around.start + (frame'.start - around.start) = frame'.start :=
        Nat.add_sub_cancel' (start ▸ later)
      rw [List.append_assoc, List.cons_append]
      -- What the scope holds becomes the end of what the scope around holds.
      refine ih [(frame'.start - around.start, frame'.finish length false)]
        (Nat.le_trans later after) (.opening opens balanced unclosed) rfl rfl
        (by simp [Frame.attach]) (.cons ?_ .nil)
      rw [place]
      exact stands

end

/-- The scopes inside the module are the pairs of matching braces of the text, whatever its tokens
declare: each opening brace has one, closed where its partner stands, or else at the end of the text,
and nested as the braces match. -/
theorem ofTokens_braces (text : String) :
    ∃ pairs, (∀ other, Matched (lex text) other ↔ other = pairs) ∧
      BracePair.openingsAll pairs = (lex text).filter (·.mark? = some "\x7b") ∧
      (ScopeTree.ofTokens (lex text)).entry.head.kind = .«module» ∧
      List.Forall₂ (Follows (lex text) (Text.byteLength text.toList)) pairs
        (ScopeTree.ofTokens (lex text)).branches := by
  have tiles := lex_tiles text
  have begins := (Grounded.run tiles).start_le_stop
  have braced : Braced (lex text) (Text.byteLength text.toList) (lex text)
      ((lex text).foldl read .initial) := Braced.run tiles
  obtain ⟨pairs, matched, kind, follow⟩ := braced.stacked.finish [] begins .nil rfl rfl
    (List.append_nil _).symm .nil
  rw [List.append_nil] at matched
  have placed := Placed.ofTokens (lex text)
  rw [Scope.ofTokens_lex] at placed
  have only (other : List BracePair) : Matched (lex text) other ↔ other = pairs :=
    ⟨fun matched' => matched'.unique matched, fun same => same ▸ matched⟩
  refine ⟨pairs, only, matched.openings, ?_, ?_⟩
  · rw [placed.head]
    exact kind
  · exact follows_branches follow placed.branches

end MuCompletion
