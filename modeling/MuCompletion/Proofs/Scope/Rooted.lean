import MuCompletion.Proofs.Scope.Complete

/-! # Scopes and their tokens

A closed scope in the tree of a text is spelled by tokens of that text which begin where the scope
does, and so are the closed scopes inside it. The invariant of a reading says the same of all that
the builder keeps open: the last tokens read spell the declaration that waits, and each open scope
but the module up to where the reading stands.
-/

namespace MuCompletion

open ScopeBuilder

/-- Every closed scope in `scope`, which begins at `start`, is spelled by some of the tokens. -/
inductive Rooted (tokens : List Token) : Nat → Scope → Prop where
  | node {start : Nat} {head : Scope.Head} {children : List (Nat × Scope)}
      (spelled : head.closed = true →
        ∃ segment, segment <:+: tokens ∧ Reading.Spells segment start (.node head children))
      (inside : ∀ child ∈ children, Rooted tokens (start + child.1) child.2) :
      Rooted tokens start (.node head children)

theorem Rooted.mono {tokens more : List Token} (sub : tokens <:+: more) {start : Nat} {scope : Scope}
    (rooted : Rooted tokens start scope) : Rooted more start scope := by
  induction rooted with
  | node spelled inside ih =>
      refine .node (fun closed => ?_) ih
      obtain ⟨segment, within, spells⟩ := spelled closed
      exact ⟨segment, within.trans sub, spells⟩

namespace ScopeBuilder

/-- The builder with the innermost scope and `count` of those around it. -/
def cut (builder : ScopeBuilder) (count : Nat) : ScopeBuilder :=
  { builder with outer := builder.outer.take count, reattached := [] }

/-- Where the declaration that waits and the open scopes begin, innermost first. -/
def starts (builder : ScopeBuilder) : List Nat :=
  (match builder.pending with
    | .declaration declaration => [declaration.start]
    | _ => []) ++ (builder.frame :: builder.outer).map (·.start)

/-- What the tokens up to `stop` say of the builder that has read them. -/
structure Grounded (tokens : List Token) (stop : Nat) (builder : ScopeBuilder) : Prop where
  unplaced : builder.reattached = []
  bottom : builder.bottom.start = 0
  ordered : (stop :: builder.starts).Pairwise (· ≥ ·)
  waiting : ∀ declaration, builder.pending = .declaration declaration →
    ∃ segment, segment <:+ tokens ∧
      Reading.ofTokens? segment = some (.head (declaration.documented none))
  opened : ∀ count < builder.outer.length, ∃ segment, segment <:+ tokens ∧
    Reading.ofTokens? segment = some (.body (builder.cut count))
  inside : ∀ frame ∈ builder.frame :: builder.outer, ∀ child ∈ frame.children,
    Rooted tokens (frame.start + child.1) child.2

section Read

variable {builder : ScopeBuilder} {token : Token}

theorem reattached_read : (builder.read token).reattached = builder.reattached := by
  by_cases opening : token.mark? = some "\x7b"
  · rw [read_opening opening]
  · by_cases closing : token.mark? = some "\x7d"
    · rw [read_closing closing]
      cases outer : builder.outer <;> simp [close, outer]
    · exact (read_quiet opening closing).reattached

theorem starts_quiet (opening : token.mark? ≠ some "\x7b") (closing : token.mark? ≠ some "\x7d") :
    (builder.read token).starts.Sublist (token.span.start :: builder.starts) := by
  have quiet := @read_quiet builder token opening closing
  have frame : (builder.read token).frame.start = builder.frame.start := by
    rcases quiet.frame with same | ⟨-, kind, documentation, declared⟩
    · rw [same]
    · rw [declared]
      rfl
  have around : ((builder.read token).frame :: (builder.read token).outer).map (·.start) =
      (builder.frame :: builder.outer).map (·.start) := by
    rw [List.map_cons, List.map_cons, frame, quiet.outer]
  have kept : ((builder.frame :: builder.outer).map (·.start)).Sublist
      (token.span.start :: builder.starts) := (List.sublist_append_right _ _).cons _
  cases waits : (builder.read token).pending with
  | nothing | binding =>
      simp only [starts, waits, around, List.nil_append]
      exact kept
  | declaration next =>
      simp only [starts, waits, around]
      rcases quiet.pending next waits with ⟨declaration, waiting, goesOn⟩ | begun
      · simp only [waiting, (PendingDeclaration.same_next? goesOn).1]
        exact List.sublist_cons_self _ _
      · have here : next.start = token.span.start := (Token.heads_of_begin? begun).2
        simp only [here, List.singleton_append]
        exact (List.sublist_append_right _ _).cons_cons _

theorem starts_read : (builder.read token).starts.Sublist (token.span.start :: builder.starts) := by
  by_cases opening : token.mark? = some "\x7b"
  · rw [read_opening opening]
    cases waiting : builder.pending with
    | nothing | binding => simp [starts, ScopeBuilder.opened, waiting, Frame.opening]
    | declaration declaration =>
        simp [starts, ScopeBuilder.opened, waiting, PendingDeclaration.start_frame_endSegment]
  · by_cases closing : token.mark? = some "\x7d"
    · have closed : (builder.read token).starts.Sublist
          ((builder.frame :: builder.outer).map (·.start)) := by
        rw [read_closing closing]
        cases outer : builder.outer <;> simp [starts, close, outer, Frame.attach]
      exact (closed.trans (List.sublist_append_right _ _)).cons _
    · exact starts_quiet opening closing

theorem bottom_start_read : (builder.read token).bottom.start = builder.bottom.start := by
  by_cases closes : token.mark? = some "\x7d" ∧ builder.outer = []
  · rw [read_closing closes.1]
    simp [close, closes.2, bottom]
  · exact (Reading.bottom_read closes).1

/-- Reading does not see the scopes that are cut off, unless it closes the last of the others. -/
theorem cut_read {count : Nat} (inside : token.mark? = some "\x7d" → (builder.cut count).outer ≠ []) :
    (builder.read token).cut ((builder.cut count).read token).outer.length =
      (builder.cut count).read token := by
  have whole : (builder.cut count).onto (builder.outer.drop count) builder.reattached = builder := by
    simp [onto, cut]
  have reading := @read_onto (builder.cut count) (builder.outer.drop count) builder.reattached token
    fun closing empty => absurd empty (inside closing)
  rw [whole] at reading
  have unplaced : ((builder.cut count).read token).reattached = [] := reattached_read
  rw [reading]
  generalize (builder.cut count).read token = cutOff at unplaced
  simp [cut, onto, ← unplaced]

end Read

namespace Grounded

variable {tokens : List Token} {stop : Nat} {builder : ScopeBuilder} {token : Token}

theorem extend {reading next : Reading}
    (found : ∃ segment, segment <:+ tokens ∧ Reading.ofTokens? segment = some reading)
    (goesOn : reading.next? token = some next) :
    ∃ segment, segment <:+ tokens ++ [token] ∧ Reading.ofTokens? segment = some next := by
  obtain ⟨segment, ⟨before, whole⟩, read⟩ := found
  refine ⟨segment ++ [token], ⟨before, ?_⟩, ?_⟩
  · rw [← List.append_assoc, whole]
  · rw [Reading.ofTokens?_append read, goesOn]

theorem fresh {reading : Reading} (begun : Reading.begin? token = some reading) :
    ∃ segment, segment <:+ tokens ++ [token] ∧ Reading.ofTokens? segment = some reading :=
  ⟨[token], List.suffix_append _ _, by simp [Reading.ofTokens?, begun]⟩

theorem waiting_read (grounded : Grounded tokens stop builder) :
    ∀ next, (builder.read token).pending = .declaration next →
      ∃ segment, segment <:+ tokens ++ [token] ∧
        Reading.ofTokens? segment = some (.head (next.documented none)) := by
  refine ScopeBuilder.waiting_read grounded.waiting (fun next opening begun => ?_)
    (fun declaration next opening closing spelled goesOn => ?_)
  · exact fresh (by simp [Reading.begin?, opening, begun])
  · refine extend spelled ?_
    simp [Reading.next?, opening, closing, PendingDeclaration.next?_documented, goesOn]

/-- The scope that an opening brace opens is spelled from its declaration or its brace on. -/
theorem innermost_read (grounded : Grounded tokens stop builder)
    (opening : token.mark? = some "\x7b") :
    ∃ segment, segment <:+ tokens ++ [token] ∧
      Reading.ofTokens? segment = some (.body ((builder.read token).cut 0)) := by
  have cutOff : (builder.read token).cut 0 = .inside (builder.opened token) := by
    rw [read_opening opening]
    rfl
  rw [cutOff]
  cases waits : builder.pending with
  | nothing | binding =>
      exact fresh (by simp [Reading.begin?, opening, ScopeBuilder.opened, waits])
  | declaration declaration =>
      refine extend (grounded.waiting declaration waits) ?_
      simp [Reading.next?, opening, ScopeBuilder.opened, waits,
        PendingDeclaration.frame_endSegment_documented]

theorem opened_read (grounded : Grounded tokens stop builder) (count : Nat)
    (fewer : count < (builder.read token).outer.length) :
    ∃ segment, segment <:+ tokens ++ [token] ∧
      Reading.ofTokens? segment = some (.body ((builder.read token).cut count)) := by
  -- A scope that was open before is read on, and its brace does not close it.
  have goesOn (old : Nat) (open_ : old < builder.outer.length)
      (inside : token.mark? = some "\x7d" → (builder.cut old).outer ≠ [])
      (same : ((builder.cut old).read token).outer.length = count) :
      ∃ segment, segment <:+ tokens ++ [token] ∧
        Reading.ofTokens? segment = some (.body ((builder.read token).cut count)) := by
    have stays : ¬(token.mark? = some "\x7d" ∧ (builder.cut old).outer = []) :=
      fun closes => inside closes.1 closes.2
    have reading := cut_read inside
    rw [same] at reading
    refine extend (grounded.opened old open_) ?_
    simp only [Reading.next?, List.isEmpty_iff, stays, if_false, reading]
  by_cases opening : token.mark? = some "\x7b"
  · cases count with
    | zero => exact grounded.innermost_read opening
    | succ old =>
        have open_ : old < builder.outer.length := by
          simpa [read_opening opening] using fewer
        refine goesOn old open_ (fun closing => by simp [opening] at closing) ?_
        simp [read_opening opening, cut]
        omega
  · by_cases closing : token.mark? = some "\x7d"
    · cases outer : builder.outer with
      | nil => simp [read_closing closing, close, outer] at fewer
      | cons around outer' =>
          have less : count < outer'.length := by
            simpa [read_closing closing, close, outer] using fewer
          refine goesOn (count + 1) (by simp [outer, less]) (fun _ => by simp [cut, outer]) ?_
          simp [read_closing closing, close, cut, outer]
          omega
    · have quiet := @read_quiet builder token opening closing
      have quiet' := @read_quiet (builder.cut count) token opening closing
      rw [quiet.outer] at fewer
      refine goesOn count fewer (fun is => absurd is closing) ?_
      rw [quiet'.outer]
      simp [cut]
      omega

theorem start_le (grounded : Grounded tokens stop builder) {around : Frame} {outer : List Frame}
    (open_ : builder.outer = around :: outer) : around.start ≤ builder.frame.start := by
  have ordered := (List.pairwise_cons.mp grounded.ordered).2
  simp only [starts, open_, List.map_cons] at ordered
  have frames := ordered.sublist (List.sublist_append_right _ _)
  exact (List.pairwise_cons.mp frames).1 _ List.mem_cons_self

theorem start_le_stop (grounded : Grounded tokens stop builder) : builder.frame.start ≤ stop := by
  have before := (List.pairwise_cons.mp grounded.ordered).1
  exact before _ (List.mem_append_right _ List.mem_cons_self)

theorem frames_ordered (grounded : Grounded tokens stop builder) :
    ((builder.frame :: builder.outer).map (·.start)).Pairwise (· ≥ ·) :=
  (List.pairwise_cons.mp grounded.ordered).2.sublist (List.sublist_append_right _ _)

theorem rooted_closed (grounded : Grounded tokens stop builder)
    (closing : token.mark? = some "\x7d") (open_ : 0 < builder.outer.length) :
    Rooted (tokens ++ [token]) builder.frame.start
      (builder.frame.finish token.span.stop true) := by
  have ends : (Reading.body (builder.cut 0)).next? token =
      some (.whole builder.frame.start (builder.frame.finish token.span.stop true)) := by
    simp [Reading.next?, closing, cut]
  obtain ⟨segment, within, read⟩ := extend (grounded.opened 0 open_) ends
  refine .node (fun _ => ⟨segment, within.isInfix, read⟩) (fun child complete => ?_)
  have inside := grounded.inside builder.frame List.mem_cons_self child
    (List.mem_reverse.mp complete)
  exact inside.mono (List.prefix_append _ _).isInfix

theorem inside_read (grounded : Grounded tokens stop builder) (frame : Frame)
    (member : frame ∈ (builder.read token).frame :: (builder.read token).outer)
    (child : Nat × Scope) (complete : child ∈ frame.children) :
    Rooted (tokens ++ [token]) (frame.start + child.1) child.2 := by
  have before : ∀ entry ∈ builder.scopes, Rooted (tokens ++ [token]) entry.1 entry.2 := by
    intro entry member
    obtain ⟨frame, open_, inside⟩ := List.mem_flatMap.mp member
    obtain ⟨child, complete, rfl⟩ := Frame.mem_scopes.mp inside
    exact (grounded.inside frame open_ child complete).mono (List.prefix_append _ _).isInfix
  have after : ∀ around ∈ builder.outer.head?, around.start ≤ builder.frame.start := by
    intro around outermost
    obtain ⟨outer, open_⟩ := List.head?_eq_some_iff.mp outermost
    exact grounded.start_le open_
  refine forall_scopes_read before after (fun closing open_ => ?_) _
    (Frame.mem_flatMap_scopes member complete)
  exact grounded.rooted_closed closing (List.length_pos_iff.mpr open_)

theorem step (grounded : Grounded tokens stop builder) (here : token.span.start = stop)
    (some : stop < token.span.stop) :
    Grounded (tokens ++ [token]) token.span.stop (builder.read token) where
  unplaced := reattached_read.trans grounded.unplaced
  bottom := bottom_start_read.trans grounded.bottom
  ordered := by
    have starts := @starts_read builder token
    rw [here] at starts
    have ordered := grounded.ordered.sublist starts
    refine List.pairwise_cons.mpr ⟨fun start member => ?_, ordered⟩
    rcases List.mem_cons.mp (starts.subset member) with rfl | member
    · exact Nat.le_of_lt some
    · have before := (List.pairwise_cons.mp grounded.ordered).1 start member
      omega
  waiting := grounded.waiting_read
  opened := grounded.opened_read
  inside := grounded.inside_read

theorem initial : Grounded [] 0 initial where
  unplaced := rfl
  bottom := rfl
  ordered := by simp [starts, ScopeBuilder.initial, Frame.opening]
  waiting := fun declaration waits => by simp [ScopeBuilder.initial] at waits
  opened := fun count fewer => by simp [ScopeBuilder.initial] at fewer
  inside := fun frame member child complete => by
    simp only [ScopeBuilder.initial, List.mem_singleton] at member
    simp [member, Frame.opening] at complete

theorem run (tiles : Tiles 0 tokens stop) : Grounded tokens stop (tokens.foldl read .initial) :=
  @foldl_read_of_step Grounded _ _ tiles initial fun _ _ _ _ _ _ here filled grounded =>
    grounded.step here filled

end Grounded

/-- The scopes left open end with the text and are spelled by no tokens; those inside them are. -/
theorem rooted_finish {tokens : List Token} {stop : Nat} {frame : Frame} {outer : List Frame}
    (ordered : ((frame :: outer).map (·.start)).Pairwise (· ≥ ·))
    (inside : ∀ around ∈ frame :: outer, ∀ child ∈ around.children,
      Rooted tokens (around.start + child.1) child.2) :
    ∀ child ∈ (finish stop frame outer).children,
      Rooted tokens ((outer.getLastD frame).start + child.1) child.2 := by
  apply @forall_scopes_finish frame outer stop fun entry => Rooted tokens entry.1 entry.2
  · exact ordered
  · intro entry member
    obtain ⟨around, open_, within⟩ := List.mem_flatMap.mp member
    obtain ⟨child, complete, rfl⟩ := Frame.mem_scopes.mp within
    exact inside around open_ child complete
  · intro last _ complete
    refine .node (fun closed => by simp at closed) fun child member => ?_
    exact complete _ (List.mem_map_of_mem (List.mem_reverse.mp member))

end ScopeBuilder

theorem rooted_ofTokens {tokens : List Token} {stop : Nat} (tiles : Tiles 0 tokens stop) :
    ∀ child ∈ (Scope.ofTokens tokens).children, Rooted tokens child.1 child.2 := by
  intro child complete
  have grounded := Grounded.run tiles
  have ordered := (List.pairwise_cons.mp grounded.ordered).2.sublist (List.sublist_append_right _ _)
  have whole : child ∈ (finish (lastStop tokens) (tokens.foldl read .initial).frame
      (tokens.foldl read .initial).outer).children := by
    simpa [Scope.ofTokens, run_nil_eq_foldl] using complete
  have rooted := rooted_finish ordered grounded.inside child whole
  have bottom : (((tokens.foldl read .initial).outer).getLastD
      (tokens.foldl read .initial).frame).start = 0 := grounded.bottom
  rw [bottom, Nat.zero_add] at rooted
  exact rooted

end MuCompletion
