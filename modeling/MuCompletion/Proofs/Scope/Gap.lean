import Mathlib.Data.List.Forall2
import MuCompletion.Proofs.Scope.Control
import MuCompletion.Proofs.Scope.Layout
import MuCompletion.Proofs.Scope.Rooted

/-! # Scopes around a gap

Two texts that differ in the body of one scope have the same scopes outside of it, at the same places
but for the distance that what follows has moved. The two are read side by side: after each pair of
tokens the same waits, and the open scopes are alike.
-/

namespace MuCompletion

open ScopeBuilder

/-- A place where two texts differ: what begins at `start` ends at `stop` in the one and at `stop'` in
the other. -/
structure Gap where
  start : Nat
  stop : Nat
  stop' : Nat
  filled : start < stop
  filled' : start < stop'

namespace Gap

/-- Offsets of the two texts that stand at the same place outside the gap. -/
inductive Beside (gap : Gap) : Nat → Nat → Prop where
  | before {offset : Nat} (early : offset ≤ gap.start) : Beside gap offset offset
  | after (past : Nat) : Beside gap (past + gap.stop) (past + gap.stop')

/-- Spans of the two texts that cover the same place. -/
structure Spans (gap : Gap) (span span' : Span) : Prop where
  start : gap.Beside span.start span'.start
  stop : gap.Beside span.stop span'.stop

/-- Symbols of scopes that begin at `start` and at `start'`: the same name at the same place. -/
structure Symbols (gap : Gap) (start start' : Nat) (symbol symbol' : Symbol) : Prop where
  name : symbol'.name = symbol.name
  kind : symbol'.kind = symbol.kind
  documentation : symbol'.documentation = symbol.documentation
  spans : gap.Spans (symbol.place start) (symbol'.place start')

/-- The scope is one that a brace closes at `stop`. -/
def Ends (stop : Nat) (entry : ScopeEntry) : Prop :=
  entry.head.kind ≠ .«module» ∧ entry.head.closed = true ∧ entry.span.stop = stop

/-- Trees of the two texts with the same scopes at the same places, but for those inside the scopes
that end where the gap does. -/
inductive Alike (gap : Gap) : ScopeTree → ScopeTree → Prop where
  | node {entry entry' : ScopeEntry} {branches branches' : List ScopeTree}
      (closed : entry'.head.closed = entry.head.closed) (spans : gap.Spans entry.span entry'.span)
      (symbols : List.Forall₂ (gap.Symbols entry.span.start entry'.span.start) entry.head.symbols
        entry'.head.symbols)
      (inside : List.Forall₂ (Alike gap) branches branches') :
      Alike gap (.node entry branches) (.node entry' branches')
  | body {entry entry' : ScopeEntry} {branches branches' : List ScopeTree}
      (start : gap.Beside entry.span.start entry'.span.start) (ends : Ends gap.stop entry)
      (ends' : Ends gap.stop' entry') : Alike gap (.node entry branches) (.node entry' branches')

/-- The scopes are alike at their starts, however they are numbered. -/
def Scopes (gap : Gap) (start : Nat) (scope : Scope) (start' : Nat) (scope' : Scope) : Prop :=
  ∀ tree tree', Placed start scope tree → Placed start' scope' tree' → gap.Alike tree tree'

/-- Open scopes that are alike so far. -/
structure Frames (gap : Gap) (frame frame' : Frame) : Prop where
  start : gap.Beside frame.start frame'.start
  symbols : List.Forall₂ (gap.Symbols frame.start frame'.start) frame.symbols frame'.symbols
  children : List.Forall₂ (fun child child' =>
    gap.Scopes (frame.start + child.1) child.2 (frame'.start + child'.1) child'.2)
    frame.children frame'.children

/-- Builders whose open scopes are alike. -/
def Stacks (gap : Gap) (builder builder' : ScopeBuilder) : Prop :=
  List.Forall₂ gap.Frames (builder.frame :: builder.outer) (builder'.frame :: builder'.outer)

variable {gap : Gap}

/-! ## Offsets -/

theorem Beside.lt_iff {x x' y y' : Nat} (first : gap.Beside x x') (second : gap.Beside y y') :
    x < y ↔ x' < y' := by
  have filled := gap.filled
  have filled' := gap.filled'
  cases first <;> cases second <;> omega

theorem Beside.le_iff {x x' y y' : Nat} (first : gap.Beside x x') (second : gap.Beside y y') :
    x ≤ y ↔ x' ≤ y' := by
  rw [← Nat.not_lt, ← Nat.not_lt, second.lt_iff first]

theorem Beside.eq_iff {x x' y y' : Nat} (first : gap.Beside x x') (second : gap.Beside y y') :
    x = y ↔ x' = y' := by
  rw [Nat.le_antisymm_iff, Nat.le_antisymm_iff, first.le_iff second, second.le_iff first]

theorem beside_stop : gap.Beside gap.stop gap.stop' := by
  have past : gap.Beside (0 + gap.stop) (0 + gap.stop') := .after 0
  rwa [Nat.zero_add, Nat.zero_add] at past

theorem Spans.before {span : Span} (start : span.start ≤ gap.start) (stop : span.stop ≤ gap.start) :
    gap.Spans span span :=
  ⟨.before start, .before stop⟩

theorem spans_shift (span : Span) : gap.Spans (span.shift gap.stop) (span.shift gap.stop') where
  start := by
    rw [Span.start_shift, Span.start_shift]
    exact .after span.start
  stop := by
    rw [Span.stop_shift, Span.stop_shift]
    exact .after span.stop

theorem Spans.eq_iff {span span' other other' : Span} (first : gap.Spans span span')
    (second : gap.Spans other other') : span = other ↔ span' = other' := by
  rw [Span.ext_iff, Span.ext_iff, first.start.eq_iff second.start, first.stop.eq_iff second.stop]

/-! ## Open scopes -/

section

variable {frame frame' : Frame}

theorem alike_branches {start start' : Nat} {children children' : List (Nat × Scope)}
    {branches branches' : List ScopeTree}
    (alike : List.Forall₂ (fun child child' =>
      gap.Scopes (start + child.1) child.2 (start' + child'.1) child'.2) children children')
    (placed : List.Forall₂ (fun child branch => Placed (start + child.1) child.2 branch) children
      branches)
    (placed' : List.Forall₂ (fun child branch => Placed (start' + child.1) child.2 branch) children'
      branches') : List.Forall₂ gap.Alike branches branches' := by
  induction alike generalizing branches branches' with
  | nil =>
      cases placed
      cases placed'
      exact .nil
  | cons alike _ ih =>
      cases placed with
      | cons placed later =>
          cases placed' with
          | cons placed' later' => exact .cons (alike _ _ placed placed') (ih later later')

theorem span_finish {stop : Nat} {closed : Bool} {tree : ScopeTree}
    (placed : Placed frame.start (frame.finish stop closed) tree) (after : frame.start ≤ stop) :
    tree.entry.span = ⟨frame.start, stop⟩ := by
  rw [placed.span, Frame.finish, Scope.head, Nat.add_sub_cancel' after]

theorem Frames.finish {stop stop' : Nat} (frames : gap.Frames frame frame') (closed : Bool)
    (ends : gap.Beside stop stop') (after : frame.start ≤ stop) (after' : frame'.start ≤ stop') :
    gap.Scopes frame.start (frame.finish stop closed) frame'.start
      (frame'.finish stop' closed) := by
  intro tree tree' placed placed'
  have head := placed.head
  have head' := placed'.head
  have span := span_finish placed after
  have span' := span_finish placed' after'
  have branches :=
    alike_branches (List.rel_reverse frames.children) placed.branches placed'.branches
  cases tree with
  | node entry trees =>
      cases tree' with
      | node entry' trees' =>
          simp only [ScopeTree.entry] at head head' span span'
          refine .node ?_ ?_ ?_ branches
          · rw [head, head']
            rfl
          · rw [span, span']
            exact ⟨frames.start, ends⟩
          · rw [head, head', span, span']
            exact List.rel_reverse frames.symbols

theorem Frames.attach {start start' : Nat} {scope scope' : Scope} (frames : gap.Frames frame frame')
    (after : frame.start ≤ start) (after' : frame'.start ≤ start')
    (alike : gap.Scopes start scope start' scope') :
    gap.Frames (frame.attach start scope) (frame'.attach start' scope') where
  start := frames.start
  symbols := frames.symbols
  children := by
    refine .cons ?_ frames.children
    have place : frame.start + (start - frame.start) = start := Nat.add_sub_cancel' after
    have place' : frame'.start + (start' - frame'.start) = start' := Nat.add_sub_cancel' after'
    simpa only [Frame.attach, place, place'] using alike

theorem Frames.note {token token' : Token} (frames : gap.Frames frame frame')
    (text : token'.text = token.text) (spans : gap.Spans token.span token'.span)
    (after : frame.start ≤ token.span.start) (after' : frame'.start ≤ token'.span.start)
    (filled : token.span.start < token.span.stop) (naming : Option (SymbolKind × Option String)) :
    gap.Frames (frame.note token naming) (frame'.note token' naming) := by
  cases naming with
  | none => exact frames
  | some naming =>
      obtain ⟨kind, documentation⟩ := naming
      have filled' := (spans.start.lt_iff spans.stop).mp filled
      refine ⟨frames.start, .cons ⟨text, rfl, rfl, ?_⟩ frames.symbols, frames.children⟩
      have place :=
        Symbol.place_of_span after (Nat.le_of_lt filled) token.text kind documentation
      have place' :=
        Symbol.place_of_span after' (Nat.le_of_lt filled') token'.text kind documentation
      simpa only [Frame.note, Frame.declare, place, place'] using spans

end

/-! ## Reading side by side -/

section

variable {builder builder' : ScopeBuilder} {token token' : Token} {tokens tokens' : List Token}

theorem Stacks.close {stop stop' : Nat} (paired : gap.Stacks builder builder')
    (grounded : Grounded tokens stop builder) (grounded' : Grounded tokens' stop' builder')
    {next next' : Nat} (ends : gap.Beside next next') (after : stop ≤ next)
    (after' : stop' ≤ next') : gap.Stacks (builder.close next) (builder'.close next') := by
  have begins := grounded.start_le_stop
  have begins' := grounded'.start_le_stop
  have around := @grounded.start_le
  have around' := @grounded'.start_le
  obtain ⟨frame, outer, pending, comments, reattached⟩ := builder
  obtain ⟨frame', outer', pending', comments', reattached'⟩ := builder'
  cases paired with
  | cons inner rest =>
      cases rest with
      | nil => exact .cons inner .nil
      | cons outside rest =>
          refine .cons (outside.attach (around rfl) (around' rfl) ?_) rest
          exact inner.finish true ends (Nat.le_trans begins after) (Nat.le_trans begins' after')

/-- Tokens at the same place are read alike, if what waits declares the same and opens alike. -/
theorem Stacks.read (paired : gap.Stacks builder builder')
    (grounded : Grounded tokens token.span.start builder)
    (grounded' : Grounded tokens' token'.span.start builder')
    (filled : token.span.start < token.span.stop) (spans : gap.Spans token.span token'.span)
    (text : token'.text = token.text) (mark : token'.mark? = token.mark?)
    (names : builder'.pending.names? token' = builder.pending.names? token)
    (opened : token.mark? = some "\x7b" →
      gap.Frames (builder.opened token) (builder'.opened token')) :
    gap.Stacks (builder.read token) (builder'.read token') := by
  have filled' := (spans.start.lt_iff spans.stop).mp filled
  by_cases opening : token.mark? = some "\x7b"
  · rw [read_opening opening, read_opening (mark.trans opening)]
    exact .cons (opened opening) paired
  · by_cases closing : token.mark? = some "\x7d"
    · rw [read_closing closing, read_closing (mark.trans closing)]
      exact paired.close grounded grounded' spans.stop (Nat.le_of_lt filled) (Nat.le_of_lt filled')
    · obtain ⟨frame, outer⟩ := @frame_read_quiet builder token opening closing
      obtain ⟨frame', outer'⟩ := @frame_read_quiet builder' token' (mark ▸ opening) (mark ▸ closing)
      rw [Stacks, frame, frame', outer, outer', names]
      cases paired with
      | cons inner around =>
          refine .cons (inner.note text spans ?_ ?_ filled _) around
          · exact grounded.start_le_stop
          · exact grounded'.start_le_stop

theorem Frames.before {length stop : Nat} {frame : Frame} (sound : frame.Sound tokens length stop)
    (empty : frame.children = []) (after : frame.start ≤ stop) (early : stop ≤ gap.start) :
    gap.Frames frame frame where
  start := .before (Nat.le_trans after early)
  symbols := by
    obtain ⟨names, noted, same⟩ := sound.names
    refine List.forall₂_same.mpr fun symbol member => ⟨rfl, rfl, rfl, ?_⟩
    have listed : (symbol.name, symbol.place frame.start) ∈ names.map fun name =>
        (name.text, name.span) := same ▸ List.mem_map_of_mem member
    obtain ⟨name, found, place⟩ := List.mem_map.mp listed
    obtain ⟨-, filled, ends⟩ := noted.inside name found
    rw [← (Prod.mk.inj place).2]
    exact .before (by omega) (by omega)
  children := by
    rw [empty]
    exact .nil

theorem stacks_before {stop : Nat} (tiles : Tiles 0 tokens stop) (early : stop ≤ gap.start) :
    gap.Stacks (tokens.foldl read .initial) (tokens.foldl read .initial) := by
  have all := @foldl_read_of_step
    (fun before stop builder => Grounded before stop builder ∧ Surveyed tokens 0 stop builder ∧
      (stop ≤ gap.start → gap.Stacks builder builder)) tokens stop tiles ?_ ?_
  · exact all.2.2 early
  · refine ⟨.initial, .initial, fun _ => .cons ⟨.before (Nat.zero_le _), .nil, .nil⟩ .nil⟩
  · rintro before token after start builder split rfl filled ⟨grounded, surveyed, paired⟩
    have member : token ∈ tokens := by simp [← split]
    refine ⟨grounded.step rfl filled, surveyed.step member rfl filled, fun early => ?_⟩
    have start : token.span.start ≤ gap.start := by omega
    refine (paired start).read grounded grounded filled (.before start early) rfl rfl rfl
      fun _ => ?_
    have ready : (builder.opened token).Ready tokens 0 0 token.span.start :=
      surveyed.ready_opened (Nat.le_refl _)
    refine .before ready.sound (children_opened builder token) ?_ start
    rw [Surveyed.start_opened rfl]
    exact surveyed.margin_le

/-! ## Behind the gap -/

/-- Two builders that know what `base` does, each moved to behind the gap in its text. -/
structure Twins (gap : Gap) (base builder builder' : ScopeBuilder) : Prop where
  left : builder = (base.shift gap.stop).amid builder.frame builder.outer
  right : builder' = (base.shift gap.stop').amid builder'.frame builder'.outer
  paired : gap.Stacks builder builder'

theorem read_moved {base : ScopeBuilder} {distance : Nat}
    (knows : builder = (base.shift distance).amid builder.frame builder.outer) (token : Token) :
    builder.read (token.shift distance) = ((base.read token).shift distance).amid
      (builder.read (token.shift distance)).frame (builder.read (token.shift distance)).outer := by
  have reattached : builder.reattached = base.reattached :=
    (congrArg ScopeBuilder.reattached knows).trans rfl
  by_cases opening : token.mark? = some "\x7b"
  · have moved : (token.shift distance).mark? = some "\x7b" := opening
    rw [read_opening moved, read_opening opening, reattached]
    rfl
  · by_cases closing : token.mark? = some "\x7d"
    · have moved : (token.shift distance).mark? = some "\x7d" := closing
      rw [read_closing moved, read_closing closing]
      have kept (builder : ScopeBuilder) (stop : Nat) :
          (builder.close stop).reattached = builder.reattached := by
        unfold ScopeBuilder.close
        split <;> rfl
      simp only [amid, shift, Pending.shift, kept, reattached]
    · have reading := @read_amid (base.shift distance) builder.frame builder.outer
        (token.shift distance) opening closing
      rw [← knows, shift_read] at reading
      rw [reading]
      rfl

theorem Frames.shift {frame : Frame} (empty : frame.children = []) :
    gap.Frames (frame.shift gap.stop) (frame.shift gap.stop') where
  start := .after frame.start
  symbols := by
    refine List.forall₂_same.mpr fun symbol _ => ⟨rfl, rfl, rfl, ?_⟩
    have place : gap.Spans _ _ := spans_shift (symbol.place frame.start)
    simpa [Symbol.place, Frame.shift, Span.shift, Nat.add_right_comm] using place
  children := by
    show List.Forall₂ _ frame.children frame.children
    rw [empty]
    exact .nil

theorem Twins.read {base : ScopeBuilder} (twins : gap.Twins base builder builder')
    (grounded : Grounded tokens (token.span.start + gap.stop) builder)
    (grounded' : Grounded tokens' (token.span.start + gap.stop') builder')
    (filled : token.span.start < token.span.stop) :
    gap.Twins (base.read token) (builder.read (token.shift gap.stop))
      (builder'.read (token.shift gap.stop')) where
  left := read_moved twins.left token
  right := read_moved twins.right token
  paired := by
    have waits : builder.pending = base.pending.shift gap.stop :=
      congrArg ScopeBuilder.pending twins.left
    have waits' : builder'.pending = base.pending.shift gap.stop' :=
      congrArg ScopeBuilder.pending twins.right
    have here : Grounded tokens (token.shift gap.stop).span.start builder := by simpa using grounded
    have here' : Grounded tokens' (token.shift gap.stop').span.start builder' := by
      simpa using grounded'
    refine twins.paired.read here here' ?_ (spans_shift token.span) rfl rfl ?_ fun _ => ?_
    · simpa using filled
    · rw [waits, waits', Pending.names?_shift, Pending.names?_shift]
    · rw [opened_shift gap.stop waits, opened_shift gap.stop' waits']
      exact .shift (children_opened base token)

/-- Builders that read the same tokens, each behind the gap in its text, stay twins. -/
theorem Twins.run {base : ScopeBuilder} {start stop : Nat} {more : List Token}
    (twins : gap.Twins base builder builder') (tiles : Tiles start more stop)
    (grounded : Grounded tokens (start + gap.stop) builder)
    (grounded' : Grounded tokens' (start + gap.stop') builder') :
    gap.Twins (more.foldl ScopeBuilder.read base)
      ((more.map (·.shift gap.stop)).foldl ScopeBuilder.read builder)
      ((more.map (·.shift gap.stop')).foldl ScopeBuilder.read builder') := by
  induction more generalizing base builder builder' start tokens tokens' with
  | nil => exact twins
  | cons token more ih =>
      obtain ⟨rfl, filled, later⟩ := tiles
      have moved {tokens : List Token} {distance : Nat} {builder : ScopeBuilder}
          (grounded : Grounded tokens (token.span.start + distance) builder) :
          Grounded (tokens ++ [token.shift distance]) (token.span.stop + distance)
            (builder.read (token.shift distance)) := by
        have next : Grounded (tokens ++ [token.shift distance]) (token.shift distance).span.stop
            (builder.read (token.shift distance)) := grounded.step (by simp) (by simpa using filled)
        simpa using next
      exact ih (twins.read grounded grounded' filled) later (moved grounded) (moved grounded')

theorem scopes_finish {stop stop' : Nat} {frame frame' : Frame} {outer outer' : List Frame}
    (frames : List.Forall₂ gap.Frames (frame :: outer) (frame' :: outer'))
    (ends : gap.Beside stop stop')
    (ordered : (stop :: (frame :: outer).map (·.start)).Pairwise (· ≥ ·))
    (ordered' : (stop' :: (frame' :: outer').map (·.start)).Pairwise (· ≥ ·)) :
    gap.Scopes (outer.getLastD frame).start (ScopeBuilder.finish stop frame outer)
      (outer'.getLastD frame').start (ScopeBuilder.finish stop' frame' outer') := by
  induction outer generalizing frame frame' outer' with
  | nil =>
      cases frames with
      | cons inner rest =>
          cases rest
          have after := (List.pairwise_cons.mp ordered).1 _ List.mem_cons_self
          have after' := (List.pairwise_cons.mp ordered').1 _ List.mem_cons_self
          exact inner.finish true ends after after'
  | cons around outer ih =>
      cases frames with
      | cons inner rest =>
          cases rest with
          | @cons _ around' _ outer' outside rest =>
              obtain ⟨before, starts⟩ := List.pairwise_cons.mp ordered
              obtain ⟨before', starts'⟩ := List.pairwise_cons.mp ordered'
              have nested := (List.pairwise_cons.mp starts).1 _ List.mem_cons_self
              have nested' := (List.pairwise_cons.mp starts').1 _ List.mem_cons_self
              have inside := inner.finish false ends (before _ List.mem_cons_self)
                (before' _ List.mem_cons_self)
              have later := ih (.cons (outside.attach nested nested' inside) rest)
                (ordered.sublist ((List.sublist_cons_self _ _).cons_cons _))
                (ordered'.sublist ((List.sublist_cons_self _ _).cons_cons _))
              rwa [start_getLastD_attach frame, start_getLastD_attach frame'] at later

end

end Gap

end MuCompletion
