import MuCompletion.Proofs.Scope.Numbering

/-! # Numbering from a worklist

A worklist lists the scopes that it has found, and keeps the numbers of those whose insides it has not
listed, the newest first. One step takes the newest, lists the scopes directly inside it behind all
others, and keeps their numbers. While numbers fit into their words, the worklist ends, and what it has
found then are the entries of the tree.
-/

namespace MuCompletion

open ScopeTree

/-- The entry of a scope before the scopes inside it are listed. -/
def ScopeEntry.found (id : Nat) (parent : Option Nat) (depth start : Nat) (scope : Scope) :
    ScopeEntry :=
  ⟨id, parent, depth, ⟨start, start + scope.head.length⟩, scope, []⟩

/-- The entry with more scopes inside. -/
def ScopeEntry.gain (ids : List Nat) (entry : ScopeEntry) : ScopeEntry :=
  { entry with children := entry.children ++ ids }

theorem ScopeEntry.gain_gain (ids more : List Nat) (entry : ScopeEntry) :
    (entry.gain ids).gain more = entry.gain (ids ++ more) := by
  simp [gain]

/-- The scopes found so far, each at its number, and the numbers of those not looked into yet. -/
structure Worklist where
  found : List ScopeEntry
  waiting : List Nat

namespace Worklist

/-- The worklist that has found a module scope. -/
def start (scope : Scope) : Worklist :=
  ⟨[.found 0 none 0 0 scope], [0]⟩

/-- Find a scope inside the scope numbered `outer`, of which `around` is the entry. The new number is the
count of the scopes found, as a word of 32 bits. -/
def find (outer : Nat) (around : ScopeEntry) (list : Worklist) (child : Nat × Scope) : Worklist :=
  let id := list.found.length.toUInt32.toNat
  let entry := ScopeEntry.found id (some outer) (around.depth + 1) (around.span.start + child.1) child.2
  ⟨(list.found ++ [entry]).modify outer (.gain [id]), id :: list.waiting⟩

/-- Look into the scope that was found last; nothing if none waits. -/
def next? (list : Worklist) : Option Worklist :=
  match list.waiting with
  | [] => none
  | outer :: waiting =>
    list.found[outer]?.map fun around =>
      around.scope.children.foldl (find outer around) ⟨list.found, waiting⟩

/-- One worklist becomes another in some steps. -/
def Reaches : Worklist → Worklist → Prop :=
  Relation.ReflTransGen fun list later => list.next? = some later

theorem Reaches.trans {list mid last : Worklist} (first : list.Reaches mid) (later : mid.Reaches last) :
    list.Reaches last :=
  Relation.ReflTransGen.trans first later

theorem Reaches.head {list mid last : Worklist} (next : list.next? = some mid)
    (later : mid.Reaches last) : list.Reaches last :=
  Relation.ReflTransGen.head next later

/-- The entries of the scopes inside a scope when they are found, under the numbers from `first` on. -/
def foundAll (outer depth start first : Nat) : List (Nat × Scope) → List ScopeEntry
  | [] => []
  | (offset, scope) :: rest =>
    .found first (some outer) depth (start + offset) scope ::
      foundAll outer depth start (first + 1) rest

theorem foldl_find {before mid : List ScopeEntry} {entry around : ScopeEntry} {waiting : List Nat}
    {first : Nat} (children : List (Nat × Scope)) (behind : before.length + 1 + mid.length = first)
    (fits : first + children.length ≤ UInt32.size) :
    children.foldl (find before.length around) ⟨before ++ entry :: mid, waiting⟩ =
      ⟨before ++ entry.gain (List.range' first children.length) ::
          (mid ++ foundAll before.length (around.depth + 1) around.span.start first children),
        (List.range' first children.length).reverse ++ waiting⟩ := by
  induction children generalizing entry mid waiting first with
  | nil => simp [foundAll, ScopeEntry.gain]
  | cons child rest ih =>
      obtain ⟨offset, scope⟩ := child
      rw [List.length_cons] at fits
      have count : (before ++ entry :: mid).length = first := by
        simp only [List.length_append, List.length_cons]
        omega
      have number : first.toUInt32.toNat = first := UInt32.toNat_ofNat_of_lt' (by omega)
      have modified (last : ScopeEntry) :
          (before ++ entry :: mid ++ [last]).modify before.length (.gain [first]) =
            before ++ entry.gain [first] :: (mid ++ [last]) := by
        rw [List.append_assoc]
        exact List.modifyTailIdx_add _ 0 before (entry :: mid ++ [last])
      rw [List.foldl_cons]
      simp only [find, count, number, modified]
      have behind' (last : ScopeEntry) : before.length + 1 + (mid ++ [last]).length = first + 1 := by
        simp only [List.length_append, List.length_singleton]
        omega
      rw [ih (behind' _) (by omega)]
      simp [foundAll, ScopeEntry.gain_gain, List.range'_succ]

theorem next?_found {before after : List ScopeEntry} {entry : ScopeEntry} {waiting : List Nat}
    {first : Nat} (behind : before.length + 1 + after.length = first)
    (fits : first + entry.scope.children.length ≤ UInt32.size) :
    next? ⟨before ++ entry :: after, before.length :: waiting⟩ =
      some ⟨before ++ entry.gain (List.range' first entry.scope.children.length) ::
          (after ++ foundAll before.length (entry.depth + 1) entry.span.start first
            entry.scope.children),
        (List.range' first entry.scope.children.length).reverse ++ waiting⟩ := by
  have here : (before ++ entry :: after)[before.length]? = some entry := by simp
  simp only [next?, here, Option.map_some, foldl_find _ behind fits]

theorem length_entries_placeAll (outer depth start first next : Nat) (children : List (Nat × Scope)) :
    (placeAll outer depth start first next children).1.length = children.length := by
  simpa using congrArg List.length (ids_branches outer depth start first next children)

theorem length_innerAll (outer depth start first next : Nat) (children : List (Nat × Scope)) :
    (innerAll (placeAll outer depth start first next children).1).length =
      Scope.descendantsAll children := by
  simpa using congrArg List.length (ids_innerAll outer depth start first next children).2

mutual

/-- When a scope has been looked into, its entry is complete, and the entries of all scopes inside it
stand behind the others. -/
theorem reaches_place (parent : Option Nat) (depth start : Nat) :
    ∀ (scope : Scope) (before after : List ScopeEntry) (waiting : List Nat) (next : Nat),
      before.length + 1 + after.length = next → next + scope.descendants ≤ UInt32.size →
      Reaches ⟨before ++ .found before.length parent depth start scope :: after,
          before.length :: waiting⟩
        ⟨before ++ (place before.length parent depth start next scope).1.entry ::
          (after ++ (place before.length parent depth start next scope).1.inner), waiting⟩
  | .node head children, before, after, waiting, next, behind, fits => by
    simp only [Scope.descendants] at fits
    have fits' : next + children.length ≤ UInt32.size := by omega
    refine Reaches.head (next?_found behind fits') ?_
    let entry := (ScopeEntry.found before.length parent depth start (.node head children)).gain
      (List.range' next children.length)
    have count : (before ++ entry :: after).length = next := by
      simp only [List.length_append, List.length_cons]
      omega
    have inside := reaches_placeAll before.length (depth + 1) start children
      (before ++ entry :: after) [] waiting next (next + children.length) count (by simp) (by omega)
    simpa [place, ScopeTree.entry, ScopeTree.inner, ScopeEntry.found, ScopeEntry.gain, entry,
      Scope.children, Scope.head] using inside

theorem reaches_placeAll (outer depth start : Nat) :
    ∀ (children : List (Nat × Scope)) (before after : List ScopeEntry) (waiting : List Nat)
      (first next : Nat), before.length = first → first + children.length + after.length = next →
      next + Scope.descendantsAll children ≤ UInt32.size →
      Reaches ⟨before ++ foundAll outer depth start first children ++ after,
          (List.range' first children.length).reverse ++ waiting⟩
        ⟨before ++ (placeAll outer depth start first next children).1.map entry ++ after ++
          innerAll (placeAll outer depth start first next children).1, waiting⟩
  | [], before, after, waiting, first, next, here, behind, fits => by
    simp only [foundAll, placeAll, innerAll, List.map_nil, List.append_nil, List.length_nil,
      List.range'_zero, List.reverse_nil, List.nil_append]
    exact .refl
  | (offset, scope) :: rest, before, after, waiting, first, next, here, behind, fits => by
    simp only [Scope.descendantsAll] at fits
    rw [List.length_cons] at behind
    subst here
    -- The scopes at the end wait on top, so they are looked into first.
    have later := reaches_placeAll outer depth start rest
      (before ++ [.found before.length (some outer) depth (start + offset) scope]) after
      (before.length :: waiting) (before.length + 1) next (by simp) (by omega) (by omega)
    have free := (ids_innerAll outer depth start (before.length + 1) next rest).1
    have length := length_entries_placeAll outer depth start (before.length + 1) next rest
    have length' := length_innerAll outer depth start (before.length + 1) next rest
    have last := reaches_place (some outer) depth (start + offset) scope before
      ((placeAll outer depth start (before.length + 1) next rest).1.map entry ++ after ++
        innerAll (placeAll outer depth start (before.length + 1) next rest).1) waiting
      (placeAll outer depth start (before.length + 1) next rest).2
      (by simp only [List.length_append, List.length_map]; omega) (by omega)
    rw [List.append_cons, ← List.append_assoc, ← List.append_assoc] at last
    simpa [foundAll, placeAll, innerAll, List.range'_succ] using later.trans last

end

theorem reaches_entries (scope : Scope) (few : scope.descendants < UInt32.size) :
    (start scope).Reaches ⟨(ofScope scope).entries, []⟩ :=
  reaches_place none 0 0 scope [] [] [] 1 rfl (by omega)

end Worklist

/-- While the numbers of scopes fit into 32 bits, the worklist ends, and it has found the entries of the
tree. These list the scope and all scopes inside it by numbers: each once, at its place, with the scopes
inside it in order under consecutive numbers, which stand in no other entry. -/
theorem flattens_reaches (scope : Scope) (few : scope.descendants < UInt32.size) :
    (Worklist.start scope).Reaches ⟨(ofScope scope).entries, []⟩ ∧
      (∃ number, Flattens scope number (ofScope scope).entries) ∧ Owned (ofScope scope).entries :=
  ⟨Worklist.reaches_entries scope few, ⟨_, flattens_ofScope scope⟩, (flattens_ofScope scope).owned⟩

/-- The scope inside the first of two blocks is numbered after both. -/
theorem flattens_reaches_blocks :
    let block (length : Nat) (children : List (Nat × Scope)) : Scope :=
      .node ⟨.block, none, length, true, [], none⟩ children
    let scope : Scope := .node ⟨.«module», none, 12, true, [], none⟩
      [(1, block 5 [(2, block 2 [])]), (7, block 4 [])]
    scope.descendants < UInt32.size ∧
      (Worklist.start scope).Reaches ⟨(ofScope scope).entries, []⟩ ∧
      (∃ number, Flattens scope number (ofScope scope).entries) ∧ Owned (ofScope scope).entries ∧
      (ofScope scope).entries.map (fun entry => (entry.parent, entry.span.start)) =
        [(none, 0), (some 0, 1), (some 0, 7), (some 1, 3)] := by
  intro block scope
  have few : scope.descendants < UInt32.size := by decide
  obtain ⟨ends, flattens, owned⟩ := flattens_reaches scope few
  exact ⟨few, ends, flattens, owned, rfl⟩

end MuCompletion
