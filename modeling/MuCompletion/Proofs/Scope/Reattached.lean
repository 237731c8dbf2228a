import MuCompletion.Proofs.Scope.Complete
import MuCompletion.Proofs.Scope.Nesting
import MuCompletion.Proofs.Scope.Reuse

/-! # What is put in place

A run passes over tokens, so what it puts in place might depend on what it put in place before. If the
scopes that it may use are apart, it does not: each of them is put in place exactly if nothing waits
where it begins, in a reading of all tokens. It then stands there in the finished tree.
-/

namespace MuCompletion

open ScopeBuilder ScopeTree

/-- A token begins at the offset, and nothing waits when all tokens before it have been read. -/
def IdleAt (tokens : List Token) (offset : Nat) : Prop :=
  ∃ before token after, tokens = before ++ token :: after ∧ token.span.start = offset ∧
    (ScopeBuilder.initial.run [] before).isIdle = true

/-- Scopes that some of the tokens spell, with the offsets where they begin, apart from each other. -/
structure Supply (tokens : List Token) (reusable : List (Nat × ScopeTree)) : Prop where
  spelled : ∀ entry ∈ reusable, Spelled tokens entry
  apart : ∀ first ∈ reusable, ∀ second ∈ reusable, first = second ∨
    first.1 + first.2.scope.head.length ≤ second.1 ∨ second.1 + second.2.scope.head.length ≤ first.1

section

variable {tokens : List Token} {stop : Nat}

theorem idleAt_iff {passed rest : List Token} {token : Token}
    (tiles : Tiles 0 (passed ++ token :: rest) stop) :
    IdleAt (passed ++ token :: rest) token.span.start ↔
      (passed.foldl read .initial).isIdle = true := by
  constructor
  · rintro ⟨passed', token', rest', same, begins, idle⟩
    have before' : Tiles 0 passed' token.span.start := begins ▸ (same ▸ tiles).before
    obtain ⟨rfl, -⟩ := tiles.before.append_inj before' same
    rwa [run_nil_eq_foldl] at idle
  · intro idle
    refine ⟨passed, token, rest, rfl, rfl, ?_⟩
    rwa [run_nil_eq_foldl]

theorem IdleAt.exists_token {offset : Nat} (idle : IdleAt tokens offset) :
    ∃ token ∈ tokens, token.span.start = offset := by
  obtain ⟨before, token, after, rfl, here, -⟩ := idle
  exact ⟨token, by simp, here⟩

theorem Reading.Spells.head_kind {token : Token} {rest : List Token} {start : Nat} {scope : Scope}
    (spells : Reading.Spells (token :: rest) start scope) :
    token.kind ≠ .whitespace ∧ token.kind ≠ .comment := by
  obtain ⟨begun, first, -⟩ := Option.bind_eq_some_iff.mp spells
  by_cases opening : token.mark? = some "\x7b"
  · simp [(step_of_mark opening).1]
  · simp only [Reading.begin?, opening, if_false, Option.map_eq_some_iff] at first
    obtain ⟨declaration, begun, -⟩ := first
    obtain ⟨word, -, -, kind, -⟩ := PendingDeclaration.begin?_eq_some begun
    simp [kind]

namespace Supply

variable {reusable : List (Nat × ScopeTree)} {entry : Nat × ScopeTree}

theorem filled (supply : Supply tokens reusable) (tiles : Tiles 0 tokens stop)
    (member : entry ∈ reusable) : 0 < entry.2.scope.head.length :=
  (supply.spelled entry member).filled tiles

theorem eq_of_start (supply : Supply tokens reusable) (tiles : Tiles 0 tokens stop)
    {other : Nat × ScopeTree} (member : entry ∈ reusable) (member' : other ∈ reusable)
    (same : entry.1 = other.1) : entry = other := by
  have some := supply.filled tiles member
  have some' := supply.filled tiles member'
  rcases supply.apart entry member other member' with equal | before | after
  · exact equal
  · omega
  · omega

theorem lookup_iff (supply : Supply tokens reusable) (tiles : Tiles 0 tokens stop) {start : Nat}
    {tree : ScopeTree} : reusable.lookup start = some tree ↔ (start, tree) ∈ reusable := by
  constructor
  · exact mem_of_lookup
  · intro member
    cases looked : reusable.lookup start with
    | none => simpa using List.lookup_eq_none_iff.mp looked _ member
    | some found =>
        have same := supply.eq_of_start tiles (mem_of_lookup looked) member rfl
        rw [(Prod.mk.inj same).2]

theorem head_kind (supply : Supply tokens reusable) (tiles : Tiles 0 tokens stop) {token : Token}
    (member : token ∈ tokens) {tree : ScopeTree} (usable : (token.span.start, tree) ∈ reusable) :
    token.kind ≠ .whitespace ∧ token.kind ≠ .comment := by
  obtain ⟨passed, rest, rfl⟩ := List.append_of_mem member
  obtain ⟨segment, later, same, spells, -⟩ := (supply.spelled _ usable).here tiles.before tiles
  cases segment with
  | nil => cases spells
  | cons first segment =>
      obtain ⟨rfl, -⟩ := List.cons.inj same
      exact spells.head_kind

/-- The entry is used by a reading that goes on from an offset. -/
def Ahead (tokens : List Token) (reusable : List (Nat × ScopeTree)) (start : Nat)
    (entry : Nat × ScopeTree) : Prop :=
  entry ∈ reusable ∧ IdleAt tokens entry.1 ∧ start ≤ entry.1

theorem ahead_pass (tiles : Tiles 0 tokens stop) {token : Token} (member : token ∈ tokens)
    (unused : ∀ tree, (token.span.start, tree) ∈ reusable → ¬IdleAt tokens token.span.start) :
    Ahead tokens reusable token.span.stop entry ↔ Ahead tokens reusable token.span.start entry := by
  have some := (tiles.of_mem member).2.1
  constructor
  · rintro ⟨usable, idle, after⟩
    exact ⟨usable, idle, by omega⟩
  · rintro ⟨usable, idle, after⟩
    refine ⟨usable, idle, ?_⟩
    obtain ⟨other, member', here⟩ := idle.exists_token
    have some' := (tiles.of_mem member').2.1
    rcases tiles.apart member member' with rfl | apart | apart
    · rw [← here] at idle
      exact absurd idle (unused entry.2 (here ▸ usable))
    · omega
    · omega

theorem ahead_use (supply : Supply tokens reusable) (tiles : Tiles 0 tokens stop) {start : Nat}
    {tree : ScopeTree} {placed : List (Nat × ScopeTree)} (member : (start, tree) ∈ reusable)
    (idle : IdleAt tokens start) :
    entry ∈ (start, tree) :: placed ∨ Ahead tokens reusable (start + tree.scope.head.length) entry ↔
      entry ∈ placed ∨ Ahead tokens reusable start entry := by
  rw [List.mem_cons]
  constructor
  · rintro ((rfl | old) | ⟨usable, idle, after⟩)
    · exact .inr ⟨member, idle, Nat.le_refl _⟩
    · exact .inl old
    · exact .inr ⟨usable, idle, by omega⟩
  · rintro (old | ⟨usable, idle, after⟩)
    · exact .inl (.inr old)
    · have some := supply.filled tiles usable
      rcases supply.apart _ member entry usable with rfl | apart | apart
      · exact .inl (.inl rfl)
      · exact .inr ⟨usable, idle, apart⟩
      · omega

end Supply

/-- The builder has come to `start`, with `rest` still to be read, and is in the state that reading all
tokens before leads to. -/
structure Reached (whole passed rest : List Token) (start : Nat) (builder : ScopeBuilder) : Prop where
  split : whole = passed ++ rest
  tiles : Tiles 0 passed start
  reads : builder.onto [] [] = passed.foldl read .initial

namespace Reached

variable {whole passed rest : List Token} {start : Nat} {builder : ScopeBuilder} {token : Token}
  {reusable : List (Nat × ScopeTree)} {entry : Nat × ScopeTree}

theorem mem (reached : Reached whole passed (token :: rest) start builder) : token ∈ whole := by
  rw [reached.split]
  simp

theorem start_eq (reached : Reached whole passed (token :: rest) start builder)
    (tiles : Tiles 0 whole stop) : token.span.start = start := by
  rw [reached.split] at tiles
  exact tiles.before.stop_unique reached.tiles

theorem idleAt_iff (reached : Reached whole passed (token :: rest) start builder)
    (tiles : Tiles 0 whole stop) : IdleAt whole start ↔ builder.isIdle = true := by
  have idle : builder.isIdle = (builder.onto [] []).isIdle := rfl
  rw [← reached.start_eq tiles, idle, reached.reads]
  rw [reached.split] at tiles ⊢
  exact MuCompletion.idleAt_iff tiles

theorem read (reached : Reached whole passed (token :: rest) start builder)
    (tiles : Tiles 0 whole stop) :
    Reached whole (passed ++ [token]) rest token.span.stop (builder.read token) where
  split := by
    rw [List.append_assoc]
    exact reached.split
  tiles := by
    obtain rfl := reached.start_eq tiles
    have some := (tiles.of_mem reached.mem).2.1
    exact Tiles.append_iff.mpr ⟨_, reached.tiles, rfl, some, rfl⟩
  reads := by
    rw [List.foldl_append, ← reached.reads]
    exact (read_onto [] fun _ _ => rfl).symm

theorem reattach (reached : Reached whole passed (token :: rest) start builder)
    (tiles : Tiles 0 whole stop) {tree : ScopeTree} (spelled : Spelled whole (start, tree))
    (idle : builder.isIdle = true) :
    ∃ segment, Reached whole (passed ++ segment)
      (rest.dropWhile (·.span.start < start + tree.scope.head.length))
      (start + tree.scope.head.length) (builder.reattach start tree) := by
  obtain rfl := reached.start_eq tiles
  rw [reached.split] at spelled tiles
  obtain ⟨segment, same, spells, inside⟩ := spelled.next tiles
  have waits : (builder.onto [] []).pending = .nothing := pending_of_isIdle idle
  refine ⟨segment, ?_, Tiles.append_iff.mpr ⟨_, reached.tiles, inside⟩, ?_⟩
  · rw [List.append_assoc, ← same]
    exact reached.split
  · rw [List.foldl_append, ← reached.reads, spells.foldl_read inside waits, reattach_onto]

theorem pass {next : ScopeBuilder} (reached : Reached whole passed (token :: rest) start builder)
    (tiles : Tiles 0 whole stop) (reading : builder.read token = next)
    (unused : ∀ tree, (start, tree) ∈ reusable → ¬IdleAt whole start) :
    entry ∈ next.reattached ∨ Supply.Ahead whole reusable token.span.stop entry ↔
      entry ∈ builder.reattached ∨ Supply.Ahead whole reusable start entry := by
  obtain rfl := reached.start_eq tiles
  rw [← reading, reattached_read, Supply.ahead_pass tiles reached.mem unused]

end Reached

/-- Exactly those scopes are put in place that begin where nothing waits. -/
theorem mem_reattached_run {reusable : List (Nat × ScopeTree)} {whole : List Token}
    (tiles : Tiles 0 whole stop) (supply : Supply whole reusable) (entry : Nat × ScopeTree)
    (builder : ScopeBuilder) {passed tokens : List Token} {start : Nat}
    (reached : Reached whole passed tokens start builder) :
    entry ∈ (builder.run reusable tokens).reattached ↔
      entry ∈ builder.reattached ∨ Supply.Ahead whole reusable start entry := by
  fun_induction ScopeBuilder.run reusable builder tokens generalizing passed start with
  | case1 builder =>
      have none : ¬Supply.Ahead whole reusable start entry := by
        rintro ⟨-, idle, after⟩
        obtain ⟨token, member, here⟩ := idle.exists_token
        have inside := tiles.of_mem member
        obtain rfl : whole = passed := by simpa using reached.split
        have ends := reached.tiles.stop_unique tiles
        omega
      simp [none]
  | case2 builder token rest blank ih =>
      have reading : builder.read token = builder.readBlank token := by simp [ScopeBuilder.read, blank]
      have next := reached.read tiles
      rw [reading] at next
      apply (ih next).trans
      apply reached.pass tiles reading
      intro tree member
      obtain rfl := reached.start_eq tiles
      exact absurd blank (supply.head_kind tiles reached.mem member).1
  | case3 builder token rest blank comment ih =>
      have reading : builder.read token = builder.readComment token := by simp [ScopeBuilder.read, comment]
      have next := reached.read tiles
      rw [reading] at next
      apply (ih next).trans
      apply reached.pass tiles reading
      intro tree member
      obtain rfl := reached.start_eq tiles
      exact absurd comment (supply.head_kind tiles reached.mem member).2
  | case4 builder token rest blank comment tree found stop' =>
      rename_i ih
      obtain rfl := reached.start_eq tiles
      have here : builder.isIdle = true ∧ reusable.lookup token.span.start = some tree := by
        simpa using found
      have member := (supply.lookup_iff tiles).mp here.2
      have idle := (reached.idleAt_iff tiles).mpr here.1
      obtain ⟨segment, next⟩ := reached.reattach tiles (supply.spelled _ member) here.1
      apply (ih next).trans
      exact supply.ahead_use tiles member idle
  | case5 builder token rest blank comment found ih =>
      have reading : builder.read token = builder.step token := by simp [ScopeBuilder.read, blank, comment]
      have next := reached.read tiles
      rw [reading] at next
      apply (ih next).trans
      apply reached.pass tiles reading
      intro tree member idle
      obtain rfl := reached.start_eq tiles
      have waits := (reached.idleAt_iff tiles).mp idle
      have looked := (supply.lookup_iff tiles).mpr member
      simp [waits, looked] at found

theorem mem_reattached {reusable : List (Nat × ScopeTree)} (tiles : Tiles 0 tokens stop)
    (supply : Supply tokens reusable) {entry : Nat × ScopeTree} :
    entry ∈ (ScopeBuilder.initial.run reusable tokens).reattached ↔
      entry ∈ reusable ∧ IdleAt tokens entry.1 := by
  have reached : Reached tokens [] tokens 0 .initial := ⟨rfl, rfl, rfl⟩
  have run := mem_reattached_run tiles supply entry .initial reached
  simpa [Supply.Ahead, ScopeBuilder.initial] using run

/-! ## In the finished tree -/

namespace ScopeBuilder

variable {builder : ScopeBuilder} {token : Token}

/-- A complete scope in the builder has the entry in it. -/
def Has (builder : ScopeBuilder) (entry : Nat × Scope) : Prop :=
  ∃ complete ∈ builder.scopes, Hosts complete.1 complete.2 entry

theorem Has.read {before : List Token} {entry : Nat × Scope} (has : builder.Has entry)
    (grounded : Grounded before stop builder) : (builder.read token).Has entry := by
  obtain ⟨complete, member, hosts⟩ := has
  by_cases stays : token.mark? = some "\x7d" → builder.outer = []
  · refine ⟨complete, ?_, hosts⟩
    rwa [scopes_read_of_open stays]
  · obtain ⟨closing, open_⟩ := Classical.not_imp.mp stays
    obtain ⟨around, outer, open_⟩ := List.exists_cons_of_ne_nil open_
    have read := scopes_read_closing closing open_ (grounded.start_le open_)
    rw [scopes, List.flatMap_cons, List.mem_append, open_] at member
    rcases member with inside | outside
    · refine ⟨(builder.frame.start, builder.frame.finish token.span.stop true), ?_, hosts.finish inside⟩
      rw [read]
      exact List.mem_cons_self
    · refine ⟨complete, ?_, hosts⟩
      rw [read]
      exact List.mem_cons_of_mem _ outside

theorem Has.run {entry : Nat × Scope} {before after : List Token} {mid : Nat}
    (has : (before.foldl ScopeBuilder.read .initial).Has entry) (tiles : Tiles 0 before mid)
    (tiles' : Tiles mid after stop) : ((before ++ after).foldl ScopeBuilder.read .initial).Has entry := by
  induction after generalizing before mid with
  | nil =>
      rw [List.append_nil]
      exact has
  | cons token after ih =>
      have next : Tiles 0 (before ++ [token]) token.span.stop :=
        Tiles.append_iff.mpr ⟨mid, tiles, tiles'.1, tiles'.2.1, rfl⟩
      have has' : ((before ++ [token]).foldl ScopeBuilder.read .initial).Has entry := by
        rw [List.foldl_append]
        exact has.read (Grounded.run tiles)
      have later := ih has' next tiles'.2.2
      rwa [List.append_assoc] at later

end ScopeBuilder

/-- A spelled scope that begins where nothing waits stands there in the tree. -/
theorem exists_node_of_idleAt (tiles : Tiles 0 tokens stop) {start : Nat} {tree : ScopeTree}
    (idle : IdleAt tokens start) (spelled : Spelled tokens (start, tree)) :
    ∃ node, Inside (ofTokens tokens) node ∧ Placed start tree.scope node := by
  obtain ⟨before, token, after, rfl, begins, idle⟩ := idle
  have tiles' : Tiles 0 before start := begins ▸ tiles.before
  obtain ⟨segment, later, same, spells, inside, behind⟩ := spelled.here tiles' tiles
  have grounded := Grounded.run tiles'
  rw [run_nil_eq_foldl] at idle
  have adopted := spells.foldl_read inside (pending_of_isIdle idle)
  have has : ((before ++ segment).foldl read .initial).Has (start, tree.scope) := by
    refine ⟨(start, tree.scope), ?_, .itself start tree.scope⟩
    rw [List.foldl_append, adopted, scopes_adopt grounded.start_le_stop]
    exact List.mem_cons_self
  obtain ⟨complete, member, hosts⟩ := has.run (Tiles.append_iff.mpr ⟨start, tiles', inside⟩) behind
  rw [List.append_assoc, ← same] at member
  have whole := Grounded.run tiles
  obtain ⟨child, complete, hosts⟩ := hosts_finish whole.frames_ordered member hosts
  have bottom : (((before ++ token :: after).foldl read .initial).outer.getLastD
      ((before ++ token :: after).foldl read .initial).frame).start = 0 := whole.bottom
  rw [bottom] at hosts
  have complete' : child ∈ (Scope.ofTokens (before ++ token :: after)).children := by
    rw [Scope.ofTokens, run_nil_eq_foldl]
    exact complete
  obtain ⟨branch, member, placed⟩ := (Placed.ofTokens _).branch_of_mem complete'
  obtain ⟨node, within, here⟩ := hosts branch placed
  exact ⟨node, inside_iff.mpr ⟨branch, member, within⟩, here⟩

end

end MuCompletion
