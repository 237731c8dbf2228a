import MuCompletion.Proofs.Lookup
import MuCompletion.Proofs.Scope.Rooted
import MuCompletion.Proofs.Token.Relex
import MuCompletion.Scope.Reuse

/-! # Building with scopes of an earlier version

A scope of the old text that lies outside the replaced tokens is spelled by tokens that the new text
has too, at the place where the update looks for it. Putting it in place of those tokens is the same
as reading them, so the updated tree is the tree of the new text.
-/

namespace MuCompletion

open ScopeBuilder

/-- The entry has the scope that some of the tokens spell, under the offset where they begin. -/
def Spelled (tokens : List Token) (entry : Nat × ScopeTree) : Prop :=
  ∃ segment, segment <:+: tokens ∧ Reading.Spells segment entry.1 entry.2.scope

theorem Spelled.here {start stop : Nat} {tree : ScopeTree} {passed tokens : List Token}
    (spelled : Spelled (passed ++ tokens) (start, tree)) (before : Tiles 0 passed start)
    (tiles : Tiles 0 (passed ++ tokens) stop) :
    ∃ segment later, tokens = segment ++ later ∧ Reading.Spells segment start tree.scope ∧
      Tiles start segment (start + tree.scope.head.length) ∧
      Tiles (start + tree.scope.head.length) later stop := by
  obtain ⟨segment, ⟨front, back, whole⟩, spells⟩ := spelled
  rw [← whole] at tiles
  obtain ⟨front', inside, later⟩ := spells.parts tiles
  rw [List.append_assoc] at whole
  obtain ⟨rfl, same⟩ := front'.append_inj before whole
  exact ⟨segment, back, same.symm, spells, inside, later⟩

theorem Spelled.filled {tokens : List Token} {stop : Nat} {entry : Nat × ScopeTree}
    (spelled : Spelled tokens entry) (tiles : Tiles 0 tokens stop) : 0 < entry.2.scope.head.length := by
  obtain ⟨segment, ⟨before, after, rfl⟩, spells⟩ := spelled
  obtain ⟨-, inside, -⟩ := spells.parts tiles
  cases segment with
  | nil => cases spells
  | cons token segment =>
      have some := inside.2.1
      have rest := inside.2.2.start_le_stop
      omega

theorem dropWhile_tiles {start mid stop : Nat} {segment rest : List Token}
    (tiles : Tiles start segment mid) (tiles' : Tiles mid rest stop) :
    (segment ++ rest).dropWhile (·.span.start < mid) = rest := by
  rw [List.dropWhile_append_of_pos]
  · cases rest with
    | nil => rfl
    | cons token rest => simp [tiles'.1]
  · intro token member
    have inside := tiles.of_mem member
    simp only [decide_eq_true_eq]
    omega

theorem Spelled.next {stop : Nat} {tree : ScopeTree} {passed rest : List Token} {token : Token}
    (spelled : Spelled (passed ++ token :: rest) (token.span.start, tree))
    (tiles : Tiles 0 (passed ++ token :: rest) stop) :
    ∃ segment, token :: rest = segment ++
        rest.dropWhile (·.span.start < token.span.start + tree.scope.head.length) ∧
      Reading.Spells segment token.span.start tree.scope ∧
      Tiles token.span.start segment (token.span.start + tree.scope.head.length) := by
  obtain ⟨segment, later, same, spells, inside, after⟩ := spelled.here tiles.before tiles
  have within : token.span.start < token.span.start + tree.scope.head.length := by
    cases segment with
    | nil => simp [Reading.Spells, Reading.ofTokens?] at spells
    | cons first segment =>
        obtain ⟨rfl, -⟩ := List.cons.inj same
        exact Nat.lt_of_lt_of_le inside.2.1 inside.2.2.start_le_stop
  have dropped := dropWhile_tiles inside after
  rw [← same, List.dropWhile_cons_of_pos (by simpa using within)] at dropped
  rw [dropped]
  exact ⟨segment, same, spells, inside⟩

namespace ScopeBuilder

/-- Without the record of it, a scope put in place is a scope adopted. -/
theorem reattach_onto (builder : ScopeBuilder) (start : Nat) (tree : ScopeTree) :
    (builder.reattach start tree).onto [] [] = (builder.onto [] []).adopt start tree.scope := by
  cases declared : tree.scope.head.declared <;>
    simp [reattach, adopt, onto, declared, Frame.introduce]

theorem pending_of_isIdle {builder : ScopeBuilder} (idle : builder.isIdle = true) :
    builder.pending = .nothing := by
  unfold isIdle at idle
  split at idle
  · next waits => exact waits
  · simp at idle

/-- Putting spelled scopes in place of their tokens is reading the tokens. -/
theorem run_eq_foldl {reusable : List (Nat × ScopeTree)} {whole : List Token} {stop : Nat}
    (tiles : Tiles 0 whole stop) (spelled : ∀ entry ∈ reusable, Spelled whole entry)
    (builder : ScopeBuilder) {passed tokens : List Token} (split : passed ++ tokens = whole) :
    (builder.run reusable tokens).onto [] [] = tokens.foldl read (builder.onto [] []) := by
  have read_plain (builder : ScopeBuilder) (token : Token) :
      (builder.onto [] []).read token = (builder.read token).onto [] [] :=
    read_onto [] fun _ _ => rfl
  -- The run skips tokens, so `passed` is what was read or skipped before, and not a fixed part.
  fun_induction ScopeBuilder.run reusable builder tokens generalizing passed with
  | case1 builder => rfl
  | case2 builder token rest blank ih =>
      have reading : builder.read token = builder.readBlank token := by simp [read, blank]
      rw [List.foldl_cons, read_plain, reading]
      exact ih (show passed ++ [token] ++ rest = whole by simpa using split)
  | case3 builder token rest blank comment ih =>
      have reading : builder.read token = builder.readComment token := by simp [read, comment]
      rw [List.foldl_cons, read_plain, reading]
      exact ih (show passed ++ [token] ++ rest = whole by simpa using split)
  | case4 builder token rest blank comment tree found stop' =>
      rename_i ih
      have idle : builder.isIdle = true ∧ reusable.lookup token.span.start = some tree := by
        simpa using found
      have waits : (builder.onto [] []).pending = .nothing := pending_of_isIdle idle.1
      subst split
      obtain ⟨segment, same, spells, inside⟩ := (spelled _ (mem_of_lookup idle.2)).next tiles
      have later := @ih (passed ++ segment) (by rw [List.append_assoc, ← same])
      rw [later, same, List.foldl_append, spells.foldl_read inside waits, reattach_onto]
  | case5 builder token rest blank comment found ih =>
      have reading : builder.read token = builder.step token := by simp [read, blank, comment]
      rw [List.foldl_cons, read_plain, reading]
      exact ih (show passed ++ [token] ++ rest = whole by simpa using split)

end ScopeBuilder

namespace ScopeTree

theorem update_eq_of_spelled {old : ScopeTree} {tokens : List Token} {changed : Span} {delta : Int}
    {stop : Nat} (tiles : Tiles 0 tokens stop)
    (spelled : ∀ entry ∈ reusableAll changed delta old.branches, Spelled tokens entry) :
    (old.update tokens changed delta).tree = ofTokens tokens := by
  have plain : ScopeBuilder.initial.onto [] [] = .initial := rfl
  have same := run_eq_foldl tiles spelled .initial (List.nil_append tokens)
  rw [plain, ← run_nil_eq_foldl] at same
  have frame := congrArg ScopeBuilder.frame same
  have outer := congrArg ScopeBuilder.outer same
  simp only [onto, List.append_nil] at frame outer
  simp only [update, ofTokens, Scope.ofTokens, frame, outer]

/-- The entry has a scope of the old text that lies before `changed` or after it, and in the latter
case moved. -/
def Outside (tokens : List Token) (changed : Span) (delta : Int) (entry : Nat × ScopeTree) : Prop :=
  ∃ start, Spelled tokens (start, entry.2) ∧
    (entry.1 = start ∧ start + entry.2.scope.head.length ≤ changed.start ∨
      entry.1 = shiftOffset delta start ∧ changed.stop ≤ start)

section

variable {tokens : List Token} (changed : Span) (delta : Int)

mutual

theorem reusable_outside (id : Nat) (parent : Option Nat) (depth start next : Nat) :
    ∀ scope : Scope, Rooted tokens start scope →
      ∀ entry ∈ reusable changed delta (place id parent depth start next scope).1,
        Outside tokens changed delta entry
  | .node head children, rooted, entry, member => by
    cases rooted with
    | node spelled inside =>
      simp only [place, reusable] at member
      split at member
      · next before =>
          simp only [Bool.and_eq_true, decide_eq_true_eq] at before
          rw [List.mem_singleton.mp member]
          exact ⟨start, spelled before.1, .inl ⟨rfl, before.2⟩⟩
      · split at member
        · next after =>
            simp only [Bool.and_eq_true, decide_eq_true_eq] at after
            rw [List.mem_singleton.mp member]
            exact ⟨start, spelled after.1, .inr ⟨rfl, after.2⟩⟩
        · exact reusableAll_outside id (depth + 1) start next (next + children.length) children inside
            entry member

theorem reusableAll_outside (parent depth start first next : Nat) :
    ∀ children : List (Nat × Scope), (∀ child ∈ children, Rooted tokens (start + child.1) child.2) →
      ∀ entry ∈ reusableAll changed delta (placeAll parent depth start first next children).1,
        Outside tokens changed delta entry
  | [], _, _, member => by simp [placeAll, reusableAll] at member
  | (offset, scope) :: rest, rooted, entry, member => by
    simp only [placeAll, reusableAll, List.mem_append] at member
    rcases member with here | later
    · exact reusable_outside first (some parent) depth (start + offset) _ scope
        (rooted _ List.mem_cons_self) entry here
    · exact reusableAll_outside parent depth start (first + 1) next rest
        (fun child member => rooted child (List.mem_cons_of_mem _ member)) entry later

end

theorem outside_ofTokens {stop : Nat} (tiles : Tiles 0 tokens stop) {entry : Nat × ScopeTree}
    (member : entry ∈ reusableAll changed delta (ofTokens tokens).branches) :
    Outside tokens changed delta entry := by
  have rooted := rooted_ofTokens tiles
  cases whole : Scope.ofTokens tokens with
  | node head children =>
      rw [whole] at rooted
      simp only [ofTokens, ofScope, whole, place, branches] at member
      refine reusableAll_outside _ delta 0 1 0 1 _ children (fun child complete => ?_) entry member
      rw [Nat.zero_add]
      exact rooted child complete

end

end ScopeTree

open ScopeTree

/-- What is spelled outside the replaced tokens is spelled in the new tokens, at its new place. -/
theorem Splice.spelled {front removed insert back : List Char}
    (splice : Splice front removed insert back) {delta : Int}
    (moves : (Text.byteLength insert : Int) = Text.byteLength removed + delta) {entry : Nat × ScopeTree}
    (outside : Outside (lexFrom 0 (front ++ removed ++ back)) splice.relexed.old delta entry) :
    Spelled (splice.tokens delta) entry := by
  obtain ⟨start, ⟨segment, ⟨before, later, whole⟩, spells⟩, place⟩ := outside
  have tiles := lexFrom_tiles 0 (front ++ removed ++ back)
  rw [← whole] at tiles
  rw [splice.old_stream] at whole
  obtain ⟨front', inside, -⟩ := spells.parts tiles
  have first := Tiles.append_iff.mpr ⟨start, front', inside⟩
  rcases place with ⟨same, early⟩ | ⟨moved, late⟩
  · obtain ⟨more, kept⟩ := first.prefix_of_le splice.kept_tiles
      (show _ = splice.kept ++ (splice.replaced ++ lexFrom splice.oldStop splice.rest) by
        rw [whole, List.append_assoc]) early
    refine ⟨segment, ⟨before, more ++ splice.produced ++ (lexFrom splice.oldStop splice.rest).map
      (·.shift delta), ?_⟩, same ▸ spells⟩
    simp only [Splice.tokens, ← kept, List.append_assoc]
  · obtain ⟨more, kept⟩ := splice.replaced_tiles.prefix_of_le front'
      (show _ = before ++ (segment ++ later) by rw [← whole, List.append_assoc]) late
    have tail : lexFrom splice.oldStop splice.rest = more ++ segment ++ later := by
      rw [← kept] at whole
      simpa only [List.append_assoc, List.append_cancel_left_eq] using whole.symm
    have fits : 0 ≤ start + delta := by
      have bound := splice.stop_le_oldStop
      have after : splice.oldStop ≤ start := late
      rw [Text.byteLength_append] at bound
      omega
    refine ⟨segment.map (·.shift delta), ⟨splice.kept ++ splice.produced ++
      more.map (·.shift delta), later.map (·.shift delta), ?_⟩, ?_⟩
    · simp only [Splice.tokens, tail, List.map_append, List.append_assoc]
    · rw [moved]
      exact spells.shift inside rfl fits

theorem Splice.update_eq {front removed insert back : List Char}
    (splice : Splice front removed insert back) {delta : Int}
    (moves : (Text.byteLength insert : Int) = Text.byteLength removed + delta) :
    ((ofTokens (lexFrom 0 (front ++ removed ++ back))).update (splice.tokens delta)
      splice.relexed.old delta).tree = ofTokens (lexFrom 0 (front ++ insert ++ back)) := by
  have tiles := lexFrom_tiles 0 (front ++ insert ++ back)
  rw [← splice.tokens_eq moves] at tiles ⊢
  apply update_eq_of_spelled tiles
  intro entry member
  exact splice.spelled moves (outside_ofTokens _ delta (lexFrom_tiles 0 _) member)

/-- Bringing the tree of a text up to date with an edit gives the tree of the new text, whatever region
was scanned again. -/
theorem update_relex {edit : Edit} {text : String} (fits : edit.fits text = true) (region : Span) :
    ((ofTokens (lex text)).update (relex (lex text) (edit.apply text) edit.change region).2
      (relex (lex text) (edit.apply text) edit.change region).1.old edit.change.delta).tree =
        ofTokens (lex (edit.apply text)) := by
  obtain ⟨front, removed, back, split⟩ := Edit.fits_iff.mp fits
  obtain ⟨splice, spliced⟩ := split.relex_eq region
  rw [spliced, lex, lex, split.text, split.toList_apply]
  exact splice.update_eq split.delta_eq

/-- A declaration that an edit leaves waiting takes over the braces of a function that only moves. -/
theorem update_relex_waiting :
    (⟨0, 1, "class A"⟩ : Edit).fits "; function: f (int x) \x7b \x7d" = true ∧
      ((ofTokens (lex "; function: f (int x) \x7b \x7d")).update
        (relex (lex "; function: f (int x) \x7b \x7d") "class A function: f (int x) \x7b \x7d"
          (⟨0, 1, "class A"⟩ : Edit).change ⟨5, 3⟩).2
        (relex (lex "; function: f (int x) \x7b \x7d") "class A function: f (int x) \x7b \x7d"
          (⟨0, 1, "class A"⟩ : Edit).change ⟨5, 3⟩).1.old 6).tree =
        ofTokens (lex "class A function: f (int x) \x7b \x7d") := by
  have fits : (⟨0, 1, "class A"⟩ : Edit).fits "; function: f (int x) \x7b \x7d" = true := by
    decide +kernel
  refine ⟨fits, ?_⟩
  exact update_relex fits ⟨5, 3⟩

end MuCompletion
