import Mathlib.Logic.Relation
import MuCompletion.Proofs.Scope.Differences
import MuCompletion.Proofs.Scope.Reuse
import MuCompletion.Proofs.Scope.Worklist

/-! # Building turn by turn

An update looks for scopes of the old tree that it may use, and then reads the new tokens by their
index. In each turn it reads a token, or puts a scope in its place and goes on at the first token that
does not begin before the end of this scope. Whatever the old and the new text have to do with each
other, every turn comes to a later token, takes no difference below zero, and so the last one ends with
what the builder finishes.
-/

namespace MuCompletion

open ScopeBuilder ScopeTree

/-! ## Looking for scopes -/

/-- The trees to look at, the last one first, and what was found; of two scopes found under one start the
later one, which stands in front, counts. -/
structure Search where
  waiting : List ScopeTree
  found : List (Nat × ScopeTree)

namespace Search

/-- Look at one tree; nothing if none is left. -/
def next? (changed : Span) (delta : Int) (search : Search) : Option Search :=
  match search.waiting with
  | [] => none
  | tree :: waiting =>
    if tree.entry.head.closed && tree.entry.span.stop ≤ changed.start then
      some ⟨waiting, (tree.entry.span.start, tree) :: search.found⟩
    else if tree.entry.head.closed && changed.stop ≤ tree.entry.span.start then
      some ⟨waiting, (shiftOffset delta tree.entry.span.start, tree) :: search.found⟩
    else some ⟨tree.branches.reverse ++ waiting, search.found⟩

/-- One search becomes another in some steps. -/
def Reaches (changed : Span) (delta : Int) : Search → Search → Prop :=
  Relation.ReflTransGen fun search later => search.next? changed delta = some later

variable (changed : Span) (delta : Int)

mutual

theorem reaches_reusable : ∀ (tree : ScopeTree) (waiting : List ScopeTree) (found : List (Nat × ScopeTree)),
    Reaches changed delta ⟨tree :: waiting, found⟩ ⟨waiting, reusable changed delta tree ++ found⟩
  | .node entry branches, waiting, found => by
    rw [reusable]
    split
    · next before => exact .single (if_pos before)
    · next before =>
        split
        · next after => exact .single ((if_neg before).trans (if_pos after))
        · next after =>
            exact .head ((if_neg before).trans (if_neg after))
              (reaches_reusableAll branches waiting found)

theorem reaches_reusableAll :
    ∀ (trees waiting : List ScopeTree) (found : List (Nat × ScopeTree)),
      Reaches changed delta ⟨trees.reverse ++ waiting, found⟩
        ⟨waiting, reusableAll changed delta trees ++ found⟩
  | [], _, _ => .refl
  | tree :: rest, waiting, found => by
    have later := reaches_reusableAll rest (tree :: waiting) found
    have here := reaches_reusable tree waiting (reusableAll changed delta rest ++ found)
    rw [reusableAll, List.reverse_cons, List.append_assoc, List.append_assoc]
    exact Relation.ReflTransGen.trans later here

end

end Search

/-! ## Turns -/

/-- Where a build stands: the index of the next token, the scopes that may still be put in place, and
what is built. -/
structure Build where
  index : Nat
  reusable : List (Nat × ScopeTree)
  builder : ScopeBuilder

namespace Build

def start (reusable : List (Nat × ScopeTree)) : Build :=
  ⟨0, reusable, .initial⟩

/-- The index of the first token that does not begin before `stop`. -/
def indexFrom (tokens : List Token) (stop : Nat) : Nat :=
  (tokens.takeWhile (·.span.start < stop)).length

/-- Read the next token, or put a scope in place that begins where it does. Nothing, if no token is left
or a difference is below zero. -/
def turn? (tokens : List Token) (build : Build) : Option Build := do
  let token ← tokens[build.index]?
  if token.kind = .whitespace then
    pure { build with index := build.index + 1, builder := build.builder.readBlank token }
  else if token.kind = .comment then
    pure { build with index := build.index + 1, builder := build.builder.readComment token }
  else
    match if build.builder.isIdle then build.reusable.lookup token.span.start else none with
    | some tree =>
      let builder ← build.builder.reattach? token.span.start tree
      pure ⟨indexFrom tokens (token.span.start + tree.scope.head.length),
        build.reusable.filter (·.1 != token.span.start), builder⟩
    | none =>
      let builder ← build.builder.step? token
      pure { build with index := build.index + 1, builder := builder }

/-- The module scope, when all tokens are read. -/
def finish? (tokens : List Token) (build : Build) : Option Scope :=
  ScopeBuilder.finish? (lastStop tokens) build.builder.frame build.builder.outer

/-- One build becomes another in some turns. -/
def Reaches (tokens : List Token) : Build → Build → Prop :=
  Relation.ReflTransGen fun build next => build.turn? tokens = some next

/-- A build that is not at its end always comes to a later token in one more turn, and at its end
finishes the scope. -/
structure Completes (tokens : List Token) (first : Build) (scope : Scope) : Prop where
  advances : ∀ build, first.Reaches tokens build → build.index < tokens.length →
    ∃ next, build.turn? tokens = some next ∧ build.index < next.index
  ends : ∃ last, first.Reaches tokens last ∧ last.index = tokens.length ∧
    last.finish? tokens = some scope

/-- The build has read or passed over some tokens up to `stop`, and reading the rest gives what a run
over all tokens gives. -/
structure Stands (tokens : List Token) (reusable : List (Nat × ScopeTree)) (passed rest : List Token)
    (stop : Nat) (build : Build) : Prop where
  split : tokens = passed ++ rest
  index : build.index = passed.length
  tiles : Tiles 0 passed stop
  ordered : build.builder.Ordered stop
  runs : build.builder.run reusable rest = ScopeBuilder.initial.run reusable tokens
  left : ∀ start, stop ≤ start → build.reusable.lookup start = reusable.lookup start

theorem takeWhile_start {passed : List Token} {token : Token} {stop stop' : Nat}
    (tiles : Tiles 0 passed stop) (here : token.span.start = stop) (later : stop < stop')
    (rest : List Token) :
    (passed ++ token :: rest).takeWhile (·.span.start < stop') =
      passed ++ token :: rest.takeWhile (·.span.start < stop') := by
  have begins : ∀ other ∈ passed, other.span.start < stop' := by
    intro other member
    have inside := tiles.of_mem member
    omega
  rw [List.takeWhile_append_of_pos (by simpa using begins), List.takeWhile_cons_of_pos]
  simpa [here] using later

namespace Stands

variable {tokens passed rest : List Token} {token : Token} {reusable : List (Nat × ScopeTree)}
  {whole stop : Nat} {build : Build}

theorem initial (tokens : List Token) (reusable : List (Nat × ScopeTree)) :
    Stands tokens reusable [] tokens 0 (start reusable) :=
  ⟨rfl, rfl, rfl, .initial, rfl, fun _ _ => rfl⟩

theorem getElem? (stands : Stands tokens reusable passed (token :: rest) stop build) :
    tokens[build.index]? = some token := by
  rw [stands.split, stands.index, List.getElem?_append_right (Nat.le_refl _), Nat.sub_self]
  rfl

theorem read (stands : Stands tokens reusable passed (token :: rest) stop build)
    (tiles : Tiles 0 tokens whole)
    (runs : build.builder.run reusable (token :: rest) =
      (build.builder.read token).run reusable rest) :
    Stands tokens reusable (passed ++ [token]) rest token.span.stop
      { build with index := build.index + 1, builder := build.builder.read token } := by
  rw [stands.split] at tiles
  have here := tiles.before.stop_unique stands.tiles
  have filled := (tiles.of_mem (List.mem_append_right _ List.mem_cons_self)).2.1
  constructor
  · simpa using stands.split
  · simp [stands.index]
  · exact Tiles.append_iff.mpr ⟨_, tiles.before, rfl, filled, rfl⟩
  · exact (here ▸ stands.ordered).read (Nat.le_of_lt filled)
  · exact runs.symm.trans stands.runs
  · intro start later
    exact stands.left start (by omega)

theorem reattach (stands : Stands tokens reusable passed (token :: rest) stop build)
    (tiles : Tiles 0 tokens whole) (idle : build.builder.pending = .nothing) {tree : ScopeTree}
    (filled : 0 < tree.scope.head.length)
    (runs : build.builder.run reusable (token :: rest) =
      (build.builder.reattach token.span.start tree).run reusable
        (rest.dropWhile (·.span.start < token.span.start + tree.scope.head.length))) :
    ∃ passed' rest' stop', passed.length < passed'.length ∧
      Stands tokens reusable passed' rest' stop'
        ⟨indexFrom tokens (token.span.start + tree.scope.head.length),
          build.reusable.filter (·.1 != token.span.start),
          build.builder.reattach token.span.start tree⟩ := by
  let stop' := token.span.start + tree.scope.head.length
  obtain ⟨split, index, first, ordered, runs', left⟩ := stands
  subst split
  have here := tiles.before.stop_unique first
  have passes := takeWhile_start first here (by omega : stop < stop') rest
  have whole_eq : passed ++ token :: rest = (passed ++ token :: rest.takeWhile (·.span.start < stop')) ++
      rest.dropWhile (·.span.start < stop') := by
    rw [List.append_assoc, List.cons_append, List.takeWhile_append_dropWhile]
  rw [whole_eq] at tiles
  obtain ⟨mid, before, after⟩ := Tiles.append_iff.mp tiles
  have inside := before.behind first
  have some := inside.2.1
  have rises := inside.2.2.start_le_stop
  refine ⟨_, _, mid, ?_, ⟨whole_eq, congrArg List.length passes, before, ?_, runs.symm.trans runs', ?_⟩⟩
  · simp only [List.length_append, List.length_cons]
    omega
  · subst here
    exact (ordered.reattach idle tree).mono (by omega)
  · intro other later
    rw [lookup_filter, if_neg (by omega)]
    exact left other (by omega)

theorem exists_read (stands : Stands tokens reusable passed (token :: rest) stop build)
    (tiles : Tiles 0 tokens whole)
    (turn : build.turn? tokens =
      some { build with index := build.index + 1, builder := build.builder.read token })
    (runs : build.builder.run reusable (token :: rest) =
      (build.builder.read token).run reusable rest) :
    ∃ next passed' rest' stop', build.turn? tokens = some next ∧ passed.length < passed'.length ∧
      Stands tokens reusable passed' rest' stop' next :=
  ⟨_, passed ++ [token], rest, token.span.stop, turn, by simp, stands.read tiles runs⟩

/-- A turn reads the next token or passes over the tokens of a scope, and what it leaves is read as
before. -/
theorem exists_turn (stands : Stands tokens reusable passed (token :: rest) stop build)
    (tiles : Tiles 0 tokens whole) (filled : ∀ entry ∈ reusable, 0 < entry.2.scope.head.length) :
    ∃ next passed' rest' stop', build.turn? tokens = some next ∧ passed.length < passed'.length ∧
      Stands tokens reusable passed' rest' stop' next := by
  have here := stands.getElem?
  have begins : token.span.start = stop :=
    (stands.split ▸ tiles).before.stop_unique stands.tiles
  by_cases space : token.kind = .whitespace
  · have reading : build.builder.read token = build.builder.readBlank token := by
      simp [ScopeBuilder.read, space]
    exact stands.exists_read tiles (by simp [turn?, here, space, reading])
      (by rw [run, reading]; simp [space])
  · by_cases comment : token.kind = .comment
    · have reading : build.builder.read token = build.builder.readComment token := by
        simp [ScopeBuilder.read, comment]
      exact stands.exists_read tiles (by simp [turn?, here, comment, reading])
        (by rw [run, reading]; simp [comment])
    · have left := stands.left token.span.start (Nat.le_of_eq begins.symm)
      cases found : if build.builder.isIdle then reusable.lookup token.span.start else none with
      | none =>
          have reading : build.builder.read token = build.builder.step token := by
            simp [ScopeBuilder.read, space, comment]
          have some : token.span.start < token.span.stop :=
            (tiles.of_mem (List.mem_of_getElem? here)).2.1
          have stepped := step?_eq (begins ▸ stands.ordered) (Nat.le_of_lt some)
            (by simp [space, comment] : ¬(token.kind = .whitespace ∨ token.kind = .comment))
          exact stands.exists_read tiles
            (by simp [turn?, here, space, comment, left, found, stepped, reading])
            (by rw [run, reading]; simp [space, comment, found])
      | some tree =>
          obtain ⟨idle, looked⟩ : build.builder.isIdle = true ∧
              reusable.lookup token.span.start = some tree := by simpa using found
          have inPlace := reattach?_eq (begins ▸ stands.ordered) tree
          obtain ⟨passed', rest', stop', longer, stands'⟩ := stands.reattach tiles
            (pending_of_isIdle idle) (filled _ (mem_of_lookup looked)) (by rw [run]; simp [space, comment, found])
          refine ⟨_, passed', rest', stop', ?_, longer, stands'⟩
          simp [turn?, here, space, comment, left, found, inPlace]

theorem exists_last (stands : Stands tokens reusable passed rest stop build)
    (tiles : Tiles 0 tokens whole) (filled : ∀ entry ∈ reusable, 0 < entry.2.scope.head.length) :
    ∃ last stop', build.Reaches tokens last ∧ Stands tokens reusable tokens [] stop' last := by
  -- The tokens that are left become fewer.
  induction left : rest.length using Nat.strong_induction_on generalizing passed rest stop build with
  | _ count ih =>
      cases rest with
      | nil =>
          have all : tokens = passed := by simpa using stands.split
          exact ⟨build, stop, .refl, all ▸ stands⟩
      | cons token rest =>
          obtain ⟨next, passed', rest', stop', turn, longer, stands'⟩ := stands.exists_turn tiles filled
          have length := congrArg List.length (stands.split.symm.trans stands'.split)
          simp only [List.length_append] at length
          obtain ⟨last, stop'', reaches, ends⟩ := ih rest'.length (by omega) stands' rfl
          exact ⟨last, stop'', .head turn reaches, ends⟩

theorem of_reaches (stands : Stands tokens reusable passed rest stop build)
    (tiles : Tiles 0 tokens whole) (filled : ∀ entry ∈ reusable, 0 < entry.2.scope.head.length)
    {later : Build} (reaches : build.Reaches tokens later) :
    ∃ passed' rest' stop', Stands tokens reusable passed' rest' stop' later := by
  induction reaches with
  | refl => exact ⟨passed, rest, stop, stands⟩
  | @tail mid later _ turn ih =>
      obtain ⟨passed, rest, stop, stands⟩ := ih
      cases rest with
      | nil =>
          have ended : tokens[mid.index]? = none := by
            rw [stands.split, stands.index]
            simp
          simp [turn?, ended] at turn
      | cons token rest =>
          obtain ⟨next, passed', rest', stop', turn', -, stands'⟩ := stands.exists_turn tiles filled
          obtain rfl := Option.some.inj (turn.symm.trans turn')
          exact ⟨passed', rest', stop', stands'⟩

theorem finish?_eq (stands : Stands tokens reusable tokens [] stop build) :
    build.finish? tokens = some (ScopeBuilder.finish (lastStop tokens)
      (ScopeBuilder.initial.run reusable tokens).frame
      (ScopeBuilder.initial.run reusable tokens).outer) := by
  have runs := stands.runs
  rw [run] at runs
  have ends : lastStop tokens = stop := by
    cases tokens with
    | nil => exact stands.tiles
    | cons token rest => exact stands.tiles.lastStop (List.cons_ne_nil _ _)
  rw [Build.finish?, ← runs, ends]
  exact ScopeBuilder.finish?_eq stands.ordered.frames

end Stands

/-- Building with scopes that are not empty completes, and gives what a run gives. -/
theorem completes_run {tokens : List Token} {whole : Nat} {reusable : List (Nat × ScopeTree)}
    (tiles : Tiles 0 tokens whole) (filled : ∀ entry ∈ reusable, 0 < entry.2.scope.head.length) :
    (start reusable).Completes tokens (ScopeBuilder.finish (lastStop tokens)
      (ScopeBuilder.initial.run reusable tokens).frame
      (ScopeBuilder.initial.run reusable tokens).outer) where
  advances := by
    intro build reaches below
    obtain ⟨passed, rest, stop, stands⟩ :=
      (Stands.initial tokens reusable).of_reaches tiles filled reaches
    cases rest with
    | nil =>
        have length := congrArg List.length stands.split
        simp only [List.append_nil] at length
        have index := stands.index
        omega
    | cons token rest =>
        obtain ⟨next, passed', rest', stop', turn, longer, stands'⟩ := stands.exists_turn tiles filled
        refine ⟨next, turn, ?_⟩
        rw [stands.index, stands'.index]
        exact longer
  ends := by
    obtain ⟨last, stop, reaches, stands⟩ :=
      (Stands.initial tokens reusable).exists_last tiles filled
    exact ⟨last, reaches, stands.index, stands.finish?_eq⟩

end Build

/-- Whatever two texts, range and distance an update is given: it finds the scopes that it may use, each
turn of the building, also one that puts a scope in place, comes to a later token, and no difference of
offsets is below zero. The starts of the tokens ascend, so that the token to go on at can be searched
for by halves. What is built is numbered in the end, as long as the numbers last. -/
theorem update_completes (old new : String) (changed : Span) (delta : Int) :
    let reusable := reusableAll changed delta (ofTokens (lex old)).branches
    let updated := ((ofTokens (lex old)).update (lex new) changed delta).tree
    Search.Reaches changed delta ⟨(ofTokens (lex old)).branches.reverse, []⟩ ⟨[], reusable⟩ ∧
      (lex new).Pairwise (fun earlier later => earlier.span.start < later.span.start) ∧
      (Build.start reusable).Completes (lex new) updated.scope ∧
      (updated.scope.descendants < UInt32.size →
        (Worklist.start updated.scope).Reaches ⟨updated.entries, []⟩) := by
  intro reusable updated
  have scope : updated.scope =
      ScopeBuilder.finish (lastStop (lex new)) (ScopeBuilder.initial.run reusable (lex new)).frame
        (ScopeBuilder.initial.run reusable (lex new)).outer :=
    (Placed.ofScope _).scope_eq
  refine ⟨?_, (lex_tiles new).ascending, ?_, fun few => ?_⟩
  · simpa using Search.reaches_reusableAll changed delta (ofTokens (lex old)).branches [] []
  · have filled : ∀ entry ∈ reusable, 0 < entry.2.scope.head.length := by
      intro entry member
      obtain ⟨start, spelled, -⟩ := outside_ofTokens changed delta (lex_tiles old) member
      exact spelled.filled (lex_tiles old)
    rw [scope]
    exact Build.completes_run (lex_tiles new) filled
  · have built : updated = ofScope updated.scope := by
      rw [scope]
      rfl
    have numbered := Worklist.reaches_entries updated.scope few
    rwa [← built] at numbered

end MuCompletion
