import MuCompletion.Proofs.Scope.Header
import MuCompletion.Proofs.Token.Stream

/-! # Reading a scope alone

The tokens of a scope run from its brace, or from the keyword of its declaration, up to the brace that
closes it. They determine the scope without a look at what surrounds them: reading them in any
builder in which nothing waits attaches the scope and declares its name, and no more. Moved tokens
spell the same scope.
-/

namespace MuCompletion

/-- The scope that ends last. -/
def ScopeBuilder.bottom (builder : ScopeBuilder) : Frame :=
  builder.outer.getLastD builder.frame

/-- A builder at the start of a scope, without the scopes around. -/
def ScopeBuilder.inside (frame : Frame) : ScopeBuilder :=
  ⟨frame, [], .nothing, [], []⟩

/-- Put a scope in place at `start`, as its tokens do. -/
def ScopeBuilder.adopt (builder : ScopeBuilder) (start : Nat) (scope : Scope) : ScopeBuilder :=
  { builder with
    frame := (builder.frame.introduce start (documentation? builder.comments)
      scope.head.declared).attach start scope
    comments := [] }

/-- How far the tokens of a scope have been read. -/
inductive Reading where
  /-- The declaration that owns the scope. -/
  | head (declaration : PendingDeclaration)
  /-- The scope and those inside it that are open. -/
  | body (builder : ScopeBuilder)
  /-- The scope with its start. -/
  | whole (start : Nat) (scope : Scope)

namespace Reading

open ScopeBuilder

/-- The reading that a token begins. -/
def begin? (token : Token) : Option Reading :=
  if token.mark? = some "\x7b" then some (.body (inside (.opening .block token.span.start)))
  else (PendingDeclaration.begin? token).map .head

/-- The reading after one more token; nothing if the token does not belong to the scope. -/
def next? (reading : Reading) (token : Token) : Option Reading :=
  match reading with
  | .head declaration =>
    if token.mark? = some "\x7b" then some (.body (inside declaration.endSegment.frame))
    else if token.mark? = some "\x7d" then none
    else (declaration.next? token).map .head
  | .body builder =>
    if token.mark? = some "\x7d" ∧ builder.outer.isEmpty then
      some (.whole builder.frame.start (builder.frame.finish token.span.stop true))
    else some (.body (builder.read token))
  | .whole _ _ => none

/-- The reading of tokens from the first token of a scope on. -/
def ofTokens? : List Token → Option Reading
  | [] => none
  | token :: rest => (begin? token).bind (rest.foldlM next?)

def start : Reading → Nat
  | .head declaration => declaration.start
  | .body builder => builder.bottom.start
  | .whole start _ => start

theorem ofTokens?_append {tokens : List Token} {reading : Reading}
    (read : ofTokens? tokens = some reading) (token : Token) :
    ofTokens? (tokens ++ [token]) = reading.next? token := by
  cases tokens with
  | nil => simp [ofTokens?] at read
  | cons first rest =>
      cases begun : begin? first with
      | none => simp [ofTokens?, begun] at read
      | some reading =>
          simp only [ofTokens?, begun, Option.bind_some] at read
          simp [ofTokens?, begun, List.foldlM_append, read]

/-- The tokens spell the scope that begins at `start`. -/
def Spells (tokens : List Token) (start : Nat) (scope : Scope) : Prop :=
  ofTokens? tokens = some (.whole start scope)

/-! ## Moving -/

def shift (distance : Nat) : Reading → Reading
  | .head declaration => .head (declaration.shift distance)
  | .body builder => .body (builder.shift distance)
  | .whole start scope => .whole (start + distance) scope

theorem begin?_shift (distance : Nat) (token : Token) :
    begin? (token.shift distance) = (begin? token).map (shift distance) := by
  by_cases opening : token.mark? = some "\x7b"
  · simp [begin?, opening, shift, inside, ScopeBuilder.shift, Pending.shift]
  · cases begun : PendingDeclaration.begin? token <;>
      simp [begin?, opening, PendingDeclaration.begin?_shift, begun, shift]

theorem next?_shift (distance : Nat) (token : Token) (reading : Reading) :
    (reading.shift distance).next? (token.shift distance) =
      (reading.next? token).map (shift distance) := by
  cases reading with
  | head declaration =>
      by_cases opening : token.mark? = some "\x7b"
      · simp [next?, shift, opening, inside, declaration.shift_endSegment,
          PendingDeclaration.shift_frame, ScopeBuilder.shift, Pending.shift]
      · by_cases closing : token.mark? = some "\x7d"
        · simp [next?, shift, closing]
        · cases goesOn : declaration.next? token <;>
            simp [next?, shift, opening, closing, PendingDeclaration.next?_shift, goesOn]
  | body builder =>
      have outer : (builder.shift distance).outer = [] ↔ builder.outer = [] := by
        simp [ScopeBuilder.shift]
      have start : (builder.shift distance).frame.start = builder.frame.start + distance := rfl
      have finish : (builder.shift distance).frame.finish (token.span.stop + distance) true =
        builder.frame.finish token.span.stop true := Frame.shift_finish distance builder.frame _ _
      by_cases closes : token.mark? = some "\x7d" ∧ builder.outer = []
      · simp [next?, shift, outer, closes, start, finish]
      · simp [next?, shift, outer, closes, shift_read]
  | whole start scope => rfl

theorem ofTokens?_shift (distance : Nat) (tokens : List Token) :
    ofTokens? (tokens.map (·.shift distance)) = (ofTokens? tokens).map (shift distance) := by
  have later (rest : List Token) (reading : Reading) :
      (rest.map (·.shift distance)).foldlM next? (reading.shift distance) =
        (rest.foldlM next? reading).map (shift distance) := by
    induction rest generalizing reading with
    | nil => rfl
    | cons token rest ih =>
        simp only [List.map_cons, List.foldlM_cons, next?_shift]
        cases reading.next? token with
        | none => rfl
        | some next => exact ih next
  cases tokens with
  | nil => rfl
  | cons token rest =>
      simp only [List.map_cons, ofTokens?, begin?_shift]
      cases begin? token with
      | none => rfl
      | some reading => exact later rest reading

theorem Spells.raise {tokens : List Token} {start : Nat} {scope : Scope} (distance : Nat) :
    Spells (tokens.map (·.shift distance)) (start + distance) scope ↔ Spells tokens start scope := by
  simp only [Spells, ofTokens?_shift, Option.map_eq_some_iff]
  constructor
  · rintro ⟨reading, read, same⟩
    cases reading with
    | head | body => simp [Reading.shift] at same
    | whole start' scope' =>
        simp only [Reading.shift, whole.injEq, Nat.add_right_cancel_iff] at same
        rw [read, same.1, same.2]
  · intro read
    exact ⟨_, read, rfl⟩

theorem Spells.shift {tokens : List Token} {start mid stop : Nat} {scope : Scope} {delta : Int}
    (spells : Spells tokens start scope) (tiles : Tiles mid tokens stop) (here : start = mid)
    (fits : 0 ≤ mid + delta) :
    Spells (tokens.map (·.shift delta)) (shiftOffset delta start) scope := by
  by_cases up : 0 ≤ delta
  · obtain ⟨distance, rfl⟩ := Int.eq_ofNat_of_zero_le up
    rw [shiftOffset_natCast]
    exact (Spells.raise distance).mpr spells
  · -- Moving down is undone by moving up, for tokens that do not fall below zero.
    obtain ⟨distance, down⟩ := Int.eq_ofNat_of_zero_le (show 0 ≤ -delta by omega)
    have begins : shiftOffset delta start + distance = start := by
      simp only [shiftOffset]
      omega
    apply (Spells.raise distance).mp
    rw [begins, ← down, tiles.map_shift_neg fits]
    exact spells

/-! ## Where a scope ends -/

theorem start_begin? {token : Token} {reading : Reading} (begun : begin? token = some reading) :
    reading.start = token.span.start := by
  by_cases opening : token.mark? = some "\x7b"
  · simp only [begin?, opening, if_true, Option.some.injEq] at begun
    subst begun
    rfl
  · simp only [begin?, opening, if_false, Option.map_eq_some_iff] at begun
    obtain ⟨declaration, begun, rfl⟩ := begun
    exact (Token.heads_of_begin? begun).2

theorem bottom_read {builder : ScopeBuilder} {token : Token}
    (inside : ¬(token.mark? = some "\x7d" ∧ builder.outer = [])) :
    (builder.read token).bottom.start = builder.bottom.start ∧
      (builder.read token).bottom.declared = builder.bottom.declared := by
  by_cases opening : token.mark? = some "\x7b"
  · simp only [read_opening opening, bottom, List.getLastD_cons, and_self]
  · by_cases closing : token.mark? = some "\x7d"
    · rw [read_closing closing]
      cases outer : builder.outer with
      | nil => exact absurd ⟨closing, outer⟩ inside
      | cons around outer' =>
          cases outer' <;>
            simp only [close, outer, bottom, Frame.attach, List.getLastD_cons, List.getLastD_nil, and_self]
    · have quiet := @read_quiet builder token opening closing
      simp only [bottom, quiet.outer]
      cases builder.outer with
      | nil =>
          rcases quiet.frame with same | ⟨-, kind, documentation, declared⟩
          · simp [same]
          · simp [declared, Frame.declare]
      | cons around outer' => simp only [List.getLastD_cons, and_self]

theorem start_next? {reading next : Reading} {token : Token}
    (goesOn : reading.next? token = some next) : next.start = reading.start := by
  cases reading with
  | head declaration =>
      by_cases opening : token.mark? = some "\x7b"
      · simp only [next?, opening, if_true, Option.some.injEq] at goesOn
        subst goesOn
        exact PendingDeclaration.start_frame_endSegment
      · by_cases closing : token.mark? = some "\x7d"
        · simp [next?, closing] at goesOn
        · simp only [next?, opening, closing, if_false, Option.map_eq_some_iff] at goesOn
          obtain ⟨declaration, goesOn, rfl⟩ := goesOn
          exact (PendingDeclaration.same_next? goesOn).1
  | body builder =>
      by_cases closes : token.mark? = some "\x7d" ∧ builder.outer = []
      · simp only [next?, List.isEmpty_iff, closes, and_self, if_true, Option.some.injEq] at goesOn
        subst goesOn
        simp [start, bottom, closes]
      · simp only [next?, List.isEmpty_iff, closes, if_false, Option.some.injEq] at goesOn
        subst goesOn
        exact (bottom_read closes).1
  | whole start scope => simp [next?] at goesOn

theorem length_next? {reading : Reading} {token : Token} {start : Nat} {scope : Scope}
    (ends : reading.next? token = some (.whole start scope)) :
    scope.head.length = token.span.stop - start := by
  cases reading with
  | head declaration =>
      by_cases opening : token.mark? = some "\x7b"
      · simp [next?, opening] at ends
      · by_cases closing : token.mark? = some "\x7d"
        · simp [next?, closing] at ends
        · simp [next?, opening, closing] at ends
  | body builder =>
      by_cases closes : token.mark? = some "\x7d" ∧ builder.outer = []
      · simp only [next?, List.isEmpty_iff, closes, and_self, if_true, Option.some.injEq,
          whole.injEq] at ends
        obtain ⟨rfl, rfl⟩ := ends
        rfl
      · simp [next?, closes] at ends
  | whole start scope => simp [next?] at ends

theorem length_foldlM_next? {tokens : List Token} {reading : Reading} {mid stop start : Nat}
    {scope : Scope} (read : tokens.foldlM next? reading = some (.whole start scope))
    (tiles : Tiles mid tokens stop) :
    tokens = [] ∧ reading = .whole start scope ∨ scope.head.length = stop - start := by
  induction tokens generalizing reading mid with
  | nil => exact .inl ⟨rfl, by simpa using read⟩
  | cons token rest ih =>
      rw [List.foldlM_cons] at read
      obtain ⟨next, goesOn, read⟩ := Option.bind_eq_some_iff.mp read
      rcases ih read tiles.2.2 with ⟨rfl, rfl⟩ | length
      · have ends : token.span.stop = stop := tiles.2.2
        right
        rw [length_next? goesOn, ends]
      · exact .inr length

theorem start_foldlM_next? {tokens : List Token} {reading next : Reading}
    (read : tokens.foldlM next? reading = some next) : next.start = reading.start := by
  induction tokens generalizing reading with
  | nil =>
      simp only [List.foldlM_nil, Option.pure_def, Option.some.injEq] at read
      rw [read]
  | cons token rest ih =>
      rw [List.foldlM_cons] at read
      obtain ⟨later, goesOn, read⟩ := Option.bind_eq_some_iff.mp read
      rw [ih read, start_next? goesOn]

theorem start_ofTokens? {tokens : List Token} {reading : Reading} {mid stop : Nat}
    (read : ofTokens? tokens = some reading) (tiles : Tiles mid tokens stop) :
    reading.start = mid := by
  cases tokens with
  | nil => simp [ofTokens?] at read
  | cons token rest =>
      obtain ⟨begun, first, read⟩ := Option.bind_eq_some_iff.mp read
      rw [start_foldlM_next? read, start_begin? first, tiles.1]

theorem Spells.stop {tokens : List Token} {start mid stop : Nat} {scope : Scope}
    (spells : Spells tokens start scope) (tiles : Tiles mid tokens stop) :
    start = mid ∧ stop = start + scope.head.length := by
  have here : start = mid := start_ofTokens? spells tiles
  refine ⟨here, ?_⟩
  cases tokens with
  | nil => simp [Spells, ofTokens?] at spells
  | cons token rest =>
      obtain ⟨begun, first, read⟩ := Option.bind_eq_some_iff.mp spells
      have ends := tiles.start_le_stop
      rcases length_foldlM_next? read tiles.2.2 with ⟨rfl, rfl⟩ | length
      · by_cases opening : token.mark? = some "\x7b" <;>
          simp [begin?, opening] at first
      · omega

/-- The tokens that spell a scope cut the stream around them where it begins and where it ends. -/
theorem Spells.parts {before segment later : List Token} {first start stop : Nat} {scope : Scope}
    (spells : Spells segment start scope) (tiles : Tiles first (before ++ segment ++ later) stop) :
    Tiles first before start ∧ Tiles start segment (start + scope.head.length) ∧
      Tiles (start + scope.head.length) later stop := by
  obtain ⟨stop', front, behind⟩ := Tiles.append_iff.mp tiles
  obtain ⟨start', outside, inside⟩ := Tiles.append_iff.mp front
  obtain ⟨rfl, rfl⟩ := spells.stop inside
  exact ⟨outside, inside, behind⟩

/-! ## Reading within other scopes -/

/-- `builder` has read the tokens of a reading after `base`. -/
inductive Over (base : ScopeBuilder) : Reading → ScopeBuilder → Prop where
  | head {declaration : PendingDeclaration} {comments : List String} (named : declaration.Named) :
      Over base (.head declaration)
        (base.heading (declaration.documented (documentation? base.comments)) comments)
  | body {inner : ScopeBuilder} :
      Over base (.body inner)
        (inner.onto
          (base.frame.introduce inner.bottom.start (documentation? base.comments)
            inner.bottom.declared :: base.outer) base.reattached)
  | whole {start : Nat} {scope : Scope} : Over base (.whole start scope) (base.adopt start scope)

variable {base : ScopeBuilder}

theorem over_begin {token : Token} {reading : Reading} (idle : base.pending = .nothing)
    (begun : begin? token = some reading) : Over base reading (base.read token) := by
  by_cases opening : token.mark? = some "\x7b"
  · simp only [begin?, opening, if_true, Option.some.injEq] at begun
    subst begun
    have opened : base.opened token = .opening .block token.span.start := by
      simp [ScopeBuilder.opened, idle]
    rw [read_opening opening, opened]
    exact .body
  · simp only [begin?, opening, if_false, Option.map_eq_some_iff] at begun
    obtain ⟨declaration, begun, rfl⟩ := begun
    rw [read_begin idle begun]
    exact .head (PendingDeclaration.named_begin? begun)

theorem over_head {token : Token} {declaration : PendingDeclaration} {comments : List String}
    {next : Reading} (named : declaration.Named) (after : declaration.start ≤ token.span.start)
    (goesOn : (Reading.head declaration).next? token = some next) :
    Over base next ((base.heading (declaration.documented (documentation? base.comments))
      comments).read token) := by
  by_cases opening : token.mark? = some "\x7b"
  · simp only [next?, opening, if_true, Option.some.injEq] at goesOn
    subst goesOn
    rw [read_opening opening]
    have opened : (base.heading (declaration.documented (documentation? base.comments))
        comments).opened token = declaration.endSegment.frame :=
      PendingDeclaration.frame_endSegment_documented _
    have begins := @PendingDeclaration.start_frame_endSegment declaration
    have declared := @PendingDeclaration.declared_frame_endSegment declaration
    have reads := @Over.body base (inside declaration.endSegment.frame)
    simp only [bottom, inside, List.getLastD_nil, begins, declared] at reads
    rw [opened]
    exact reads
  · by_cases closing : token.mark? = some "\x7d"
    · simp [next?, closing] at goesOn
    · simp only [next?, opening, closing, if_false, Option.map_eq_some_iff] at goesOn
      obtain ⟨later, goesOn, rfl⟩ := goesOn
      have documented : (declaration.documented (documentation? base.comments)).next? token =
          some (later.documented (documentation? base.comments)) := by
        rw [PendingDeclaration.next?_documented, goesOn, Option.map_some]
      have named' : (declaration.documented (documentation? base.comments)).Named := named
      obtain ⟨comments', read⟩ := read_heading named' after opening closing documented
      rw [read]
      exact .head (PendingDeclaration.named_next? named goesOn)

theorem over_body {token : Token} {inner : ScopeBuilder} {next : Reading}
    (idle : base.pending = .nothing) (goesOn : (Reading.body inner).next? token = some next) :
    Over base next ((inner.onto
      (base.frame.introduce inner.bottom.start (documentation? base.comments)
        inner.bottom.declared :: base.outer) base.reattached).read token) := by
  by_cases closes : token.mark? = some "\x7d" ∧ inner.outer = []
  · simp only [next?, List.isEmpty_iff, closes, and_self, if_true, Option.some.injEq] at goesOn
    subst goesOn
    have closed : (inner.onto
        (base.frame.introduce inner.bottom.start (documentation? base.comments)
          inner.bottom.declared :: base.outer) base.reattached).read token =
        base.adopt inner.frame.start (inner.frame.finish token.span.stop true) := by
      simp [read_closing closes.1, onto, close, closes.2, adopt, bottom, idle, Frame.finish,
        Scope.head]
    rw [closed]
    exact .whole
  · -- The scopes around are not touched, since the token closes none or one inside.
    simp only [next?, List.isEmpty_iff, closes, if_false, Option.some.injEq] at goesOn
    subst goesOn
    obtain ⟨begins, declared⟩ := bottom_read closes
    rw [read_onto base.reattached fun closing empty => absurd ⟨closing, empty⟩ closes,
      ← begins, ← declared]
    exact .body

theorem over_next {token : Token} {reading next : Reading} {builder : ScopeBuilder}
    (idle : base.pending = .nothing) (reads : Over base reading builder)
    (after : reading.start ≤ token.span.start)
    (goesOn : reading.next? token = some next) : Over base next (builder.read token) := by
  cases reads with
  | head named => exact over_head named after goesOn
  | body => exact over_body idle goesOn
  | whole => simp [next?] at goesOn

theorem over_foldl {tokens : List Token} {reading next : Reading} {builder : ScopeBuilder}
    (idle : base.pending = .nothing) (reads : Over base reading builder)
    (after : ∀ token ∈ tokens, reading.start ≤ token.span.start)
    (goesOn : tokens.foldlM next? reading = some next) :
    Over base next (tokens.foldl read builder) := by
  induction tokens generalizing reading builder with
  | nil =>
      simp only [List.foldlM_nil, Option.pure_def, Option.some.injEq] at goesOn
      rwa [← goesOn]
  | cons token rest ih =>
      rw [List.foldlM_cons] at goesOn
      obtain ⟨later, first, goesOn⟩ := Option.bind_eq_some_iff.mp goesOn
      have here := over_next idle reads (after token List.mem_cons_self) first
      refine ih here (fun token member => ?_) goesOn
      rw [start_next? first]
      exact after token (List.mem_cons_of_mem _ member)

/-- Where nothing waits, reading the tokens of a scope puts the scope in place. -/
theorem Spells.foldl_read {tokens : List Token} {start mid stop : Nat} {scope : Scope}
    (spells : Spells tokens start scope) (tiles : Tiles mid tokens stop)
    (idle : base.pending = .nothing) : tokens.foldl read base = base.adopt start scope := by
  cases tokens with
  | nil => simp [Spells, ofTokens?] at spells
  | cons token rest =>
      obtain ⟨begun, first, goesOn⟩ := Option.bind_eq_some_iff.mp spells
      have after : ∀ later ∈ rest, begun.start ≤ later.span.start := by
        intro later member
        have inside := tiles.2.2.of_mem member
        rw [start_begin? first, tiles.1]
        exact Nat.le_trans (Nat.le_of_lt tiles.2.1) inside.1
      have reads := over_foldl idle (over_begin idle first) after goesOn
      rw [List.foldl_cons]
      generalize rest.foldl read (base.read token) = builder at reads
      cases reads with
      | whole => rfl

end Reading

end MuCompletion
