import MuCompletion.Proofs.Scope.Braces
import MuCompletion.Proofs.Scope.Gap

/-! # Bodies of scopes

Whatever stands between a brace that opens a scope and the brace that closes it, the text before is
read alike, and so is the text behind: when the closing brace has been read, nothing waits, the
comments say nothing, and the scopes around have gained one scope that is complete. The trees of two
texts that differ in the body of one scope are therefore alike outside of it.
-/

namespace MuCompletion

open ScopeBuilder Text

/-- A text with a pair of braces in it. -/
def embrace (front inside back : String) : String :=
  front ++ "\x7b" ++ inside ++ "\x7d" ++ back

/-- The tokens of a text in which the brace after `front` opens a scope that the brace before `back`
closes: both are marks, and the braces between them match. -/
structure Embraced (front inside back : String) (before : List Token) (opening : Token)
    (between : List Token) (closing : Token) (after : List Token) : Prop where
  tokens : lex (embrace front inside back) = before ++ (opening :: between ++ [closing]) ++ after
  opens : opening.mark? = some "\x7b"
  begins : opening.span.start = byteLength front.toList
  closes : closing.mark? = some "\x7d"
  ends : closing.span.stop = byteLength front.toList + byteLength inside.toList + 2
  balanced : ∃ pairs, Balanced false between pairs

/-- The brace after `front` opens a scope, and the brace before `back` closes it. -/
def HasBody (front inside back : String) : Prop :=
  ∃ before opening between closing after,
    Embraced front inside back before opening between closing after

/-- The gap that the bodies of a scope make between the texts. -/
def bodyGap (front inside inside' : String) : Gap where
  start := byteLength front.toList
  stop := byteLength front.toList + byteLength inside.toList + 2
  stop' := byteLength front.toList + byteLength inside'.toList + 2
  filled := by omega
  filled' := by omega

section

variable {front inside inside' back : String} {before between after : List Token}
  {opening closing : Token}

theorem toList_embrace (front inside back : String) :
    (embrace front inside back).toList =
      front.toList ++ ('\x7b' :: inside.toList ++ ['\x7d']) ++ back.toList := by
  simp [embrace]

theorem byteLength_body (front inside : String) :
    byteLength (front.toList ++ ('\x7b' :: inside.toList ++ ['\x7d'])) =
      byteLength front.toList + byteLength inside.toList + 2 := by
  have brace : Char.utf8Size '\x7b' = 1 := rfl
  have brace' : Char.utf8Size '\x7d' = 1 := rfl
  simp [brace, brace']
  omega

theorem byteLength_embrace (front inside back : String) :
    byteLength (embrace front inside back).toList =
      byteLength back.toList + (byteLength front.toList + byteLength inside.toList + 2) := by
  rw [toList_embrace, byteLength_append, byteLength_body, Nat.add_comm]

namespace Embraced

/-- The text before the brace is read as if it stood alone, and so is the text behind the scope. -/
theorem streams (embraced : Embraced front inside back before opening between closing after) :
    before = lex front ∧
      after = (lex back).map
        (·.shift ((byteLength front.toList + byteLength inside.toList + 2 : Nat) : Int)) ∧
      Tiles 0 before (byteLength front.toList) ∧
      Tiles 0 (before ++ (opening :: between ++ [closing]))
        (byteLength front.toList + byteLength inside.toList + 2) := by
  have tiles := lex_tiles (embrace front inside back)
  have whole := embraced.tokens
  rw [whole] at tiles
  obtain ⟨mid, first, last⟩ := Tiles.append_iff.mp tiles
  obtain ⟨start, front', body⟩ := Tiles.append_iff.mp first
  obtain rfl : start = byteLength front.toList := body.1.symm.trans embraced.begins
  obtain rfl : mid = byteLength front.toList + byteLength inside.toList + 2 := by
    obtain ⟨_, -, closed⟩ := Tiles.append_iff.mp body
    rw [← embraced.ends]
    exact closed.2.2.symm
  rw [lex, toList_embrace] at whole
  refine ⟨?_, ?_, front', first⟩
  · rw [List.append_assoc, List.append_assoc before] at whole
    exact lexFrom_of_append whole (by rwa [Nat.zero_add])
  · obtain ⟨text, rest, split, tiles', later⟩ := lexFrom_eq_append whole
    have here := first.stop_unique tiles'
    have same : rest = back.toList := by
      refine suffix_unique (List.suffix_append text rest) (split ▸ List.suffix_append _ _) ?_
      have sizes := congrArg byteLength split
      have size := byteLength_embrace front inside back
      rw [toList_embrace] at size
      rw [size, byteLength_append] at sizes
      omega
    rw [later, same, ← here, lex, map_shift_lexFrom _ 0 _ (by omega), shiftOffset_natCast,
      Nat.zero_add]

end Embraced

/-! ## Reading a body -/

theorem foldl_read_balanced {outside : Bool} {tokens : List Token} {pairs : List BracePair}
    (balanced : Balanced outside tokens pairs) (builder : ScopeBuilder)
    (depth : outside = true → builder.outer = []) :
    (tokens.foldl read builder).outer = builder.outer ∧
      (tokens.foldl read builder).frame.start = builder.frame.start ∧
      (tokens.foldl read builder).frame.kind = builder.frame.kind := by
  induction balanced generalizing builder with
  | nil => exact ⟨rfl, rfl, rfl⟩
  | other opening closing =>
      have quiet := @read_quiet builder _ opening closing
      refine ⟨quiet.outer, ?_⟩
      rcases quiet.frame with same | ⟨-, kind, documentation, declared⟩
      · simp only [List.foldl_cons, List.foldl_nil, same, and_self]
      · simp only [List.foldl_cons, List.foldl_nil, declared, Frame.declare, and_self]
  | stray closing =>
      simp only [List.foldl_cons, List.foldl_nil, read_closing closing, close, depth rfl, and_self]
  | @pair outside opening closing tokens pairs opens closes between ih =>
      obtain ⟨outer, start, -⟩ := ih (builder.read opening) (by simp)
      rw [List.cons_append, List.foldl_cons, List.foldl_append, List.foldl_cons, List.foldl_nil,
        read_closing closes]
      rw [read_opening opens] at outer
      simp only [read_opening opens] at outer ⊢
      simp only [close, outer, Frame.attach, and_self]
  | append before after ih ih' =>
      obtain ⟨outer, start, kind⟩ := ih builder depth
      obtain ⟨outer', start', kind'⟩ := ih' _ fun outside => outer.trans (depth outside)
      rw [List.foldl_append]
      exact ⟨outer'.trans outer, start'.trans start, kind'.trans kind⟩

/-- A scope and its braces: when they have been read, the scope around has the complete scope. -/
theorem foldl_read_body {pairs : List BracePair} (opens : opening.mark? = some "\x7b")
    (closes : closing.mark? = some "\x7d") (balanced : Balanced false between pairs)
    (builder : ScopeBuilder) :
    ∃ (frame : Frame) (reattached : List (Nat × ScopeTree)),
      frame.start = (builder.opened opening).start ∧
      frame.kind = (builder.opened opening).kind ∧
      (opening :: between ++ [closing]).foldl read builder =
        ⟨builder.frame.attach frame.start (frame.finish closing.span.stop true), builder.outer,
          .nothing, [], reattached⟩ := by
  obtain ⟨outer, start, kind⟩ := foldl_read_balanced balanced (builder.read opening) (by simp)
  rw [read_opening opens] at outer start kind
  refine ⟨_, (between.foldl read (builder.read opening)).reattached, start, kind, ?_⟩
  rw [List.cons_append, List.foldl_cons, List.foldl_append, List.foldl_cons, List.foldl_nil,
    read_closing closes]
  simp only [read_opening opens] at outer ⊢
  simp only [close, outer]

/-! ## The texts side by side -/

theorem scopes_body {gap : Gap} {frame frame' : Frame} (start : frame'.start = frame.start)
    (kind : frame'.kind = frame.kind) (early : frame.start ≤ gap.start)
    (owned : frame.kind ≠ .«module») :
    gap.Scopes frame.start (frame.finish gap.stop true) frame'.start
      (frame'.finish gap.stop' true) := by
  intro tree tree' placed placed'
  have filled := gap.filled
  have filled' := gap.filled'
  have head := placed.head
  have head' := placed'.head
  have span := Gap.span_finish placed (by omega)
  have span' := Gap.span_finish placed' (by omega)
  cases tree with
  | node entry branches =>
      cases tree' with
      | node entry' branches' =>
          simp only [ScopeTree.entry, Frame.finish, Scope.head] at head head' span span'
          refine .body ?_ ⟨?_, ?_, ?_⟩ ⟨?_, ?_, ?_⟩
          · rw [span, span', start]
            exact .before early
          · rwa [head]
          · rw [head]
          · rw [span]
          · rwa [head', kind]
          · rw [head']
          · rw [span']

theorem twins_embraced {between' after' before' : List Token} {opening' closing' : Token}
    (embraced : Embraced front inside back before opening between closing after)
    (embraced' : Embraced front inside' back before' opening' between' closing' after') :
    (bodyGap front inside inside').Twins .initial
      ((before ++ (opening :: between ++ [closing])).foldl read .initial)
      ((before' ++ (opening' :: between' ++ [closing'])).foldl read .initial) := by
  obtain ⟨same, -, tiles, whole⟩ := embraced.streams
  obtain ⟨same', -, -, whole'⟩ := embraced'.streams
  obtain rfl : before = before' := same.trans same'.symm
  have unplaced := (Grounded.run whole).unplaced
  have unplaced' := (Grounded.run whole').unplaced
  have surveyed : Surveyed before 0 (byteLength front.toList) (before.foldl read .initial) :=
    Surveyed.run tiles
  have paired : (bodyGap front inside inside').Stacks (before.foldl read .initial)
      (before.foldl read .initial) := Gap.stacks_before tiles (Nat.le_refl _)
  obtain ⟨pairs, balanced⟩ := embraced.balanced
  obtain ⟨pairs', balanced'⟩ := embraced'.balanced
  obtain ⟨frame, reattached, start, kind, reading⟩ :=
    foldl_read_body embraced.opens embraced.closes balanced (before.foldl read .initial)
  obtain ⟨frame', reattached', start', kind', reading'⟩ :=
    foldl_read_body embraced'.opens embraced'.closes balanced' (before.foldl read .initial)
  rw [List.foldl_append, reading] at unplaced ⊢
  rw [List.foldl_append, reading'] at unplaced' ⊢
  obtain rfl : reattached = [] := unplaced
  obtain rfl : reattached' = [] := unplaced'
  -- The scope begins where its declaration does, or at the brace, in both texts.
  rw [Surveyed.start_opened embraced.begins] at start
  rw [Surveyed.start_opened embraced'.begins] at start'
  have early : frame.start ≤ byteLength front.toList := start ▸ surveyed.margin_le
  have owned : frame.kind ≠ .«module» := kind ▸ surveyed.kind_opened
  have same : frame'.kind = frame.kind := by
    rw [kind, kind']
    cases waits : (before.foldl read .initial).pending <;>
      simp only [ScopeBuilder.opened, waits] <;> rfl
  have body : (bodyGap front inside inside').Scopes frame.start
      (frame.finish (bodyGap front inside inside').stop true) frame'.start
      (frame'.finish (bodyGap front inside inside').stop' true) :=
    scopes_body (start'.trans start.symm) same early owned
  refine ⟨rfl, rfl, ?_⟩
  rw [embraced.ends, embraced'.ends]
  cases paired with
  | cons inner around =>
      refine .cons (inner.attach ?_ ?_ body) around
      · rw [start]
        exact surveyed.nested.start_le
      · rw [start']
        exact surveyed.nested.start_le

theorem alike_embrace (body : HasBody front inside back) (body' : HasBody front inside' back) :
    (bodyGap front inside inside').Alike (ScopeTree.ofTokens (lex (embrace front inside back)))
      (ScopeTree.ofTokens (lex (embrace front inside' back))) := by
  obtain ⟨before, opening, between, closing, after, embraced⟩ := body
  obtain ⟨before', opening', between', closing', after', embraced'⟩ := body'
  obtain ⟨-, later, -, whole⟩ := embraced.streams
  obtain ⟨-, later', -, whole'⟩ := embraced'.streams
  have here := Grounded.run whole
  have here' := Grounded.run whole'
  have twins := (twins_embraced embraced embraced').run (lex_tiles back)
    (by rwa [Nat.zero_add]) (by rwa [Nat.zero_add])
  have grounded := Grounded.run (lex_tiles (embrace front inside back))
  have grounded' := Grounded.run (lex_tiles (embrace front inside' back))
  have ends : (bodyGap front inside inside').Beside
      (byteLength (embrace front inside back).toList)
      (byteLength (embrace front inside' back).toList) := by
    rw [byteLength_embrace, byteLength_embrace]
    exact .after _
  have paired : (bodyGap front inside inside').Stacks
      ((lex (embrace front inside back)).foldl read .initial)
      ((lex (embrace front inside' back)).foldl read .initial) := by
    rw [embraced.tokens, embraced'.tokens, List.foldl_append, List.foldl_append (l := before' ++ _),
      later, later']
    exact twins.paired
  have ordered {tokens : List Token} {stop : Nat} {builder : ScopeBuilder}
      (grounded : Grounded tokens stop builder) :
      (stop :: (builder.frame :: builder.outer).map (·.start)).Pairwise (· ≥ ·) :=
    grounded.ordered.sublist ((List.sublist_append_right _ _).cons_cons _)
  have alike := Gap.scopes_finish paired ends (ordered grounded) (ordered grounded')
  have bottom := grounded.bottom
  have bottom' := grounded'.bottom
  rw [ScopeBuilder.bottom] at bottom bottom'
  rw [bottom, bottom', ← Scope.ofTokens_lex, ← Scope.ofTokens_lex] at alike
  exact alike _ _ (.ofTokens _) (.ofTokens _)

end

end MuCompletion
