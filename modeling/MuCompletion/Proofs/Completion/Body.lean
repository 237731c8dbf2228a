import MuCompletion.Completion.Candidate
import MuCompletion.Proofs.Scope.Body
import MuCompletion.Proofs.Token.Shape

/-! # Completions outside a body

What can be seen from a cursor, and what is being typed there, does not depend on the body of a
complete scope that does not hold the cursor. Two texts that differ in such a body offer the same
completions at the same place.
-/

namespace MuCompletion

open ScopeTree Text

theorem CompletionContext.cursor_at? {text : String} {tokens : List Token} {cursor : Nat}
    {context : CompletionContext} (found : at? text tokens cursor = some context) :
    context.cursor = floorOffset cursor text.toList := by
  simp only [at?] at found
  grind

namespace Gap

/-- Scopes of the two texts at the same place, with the same names. -/
structure Entries (gap : Gap) (entry entry' : ScopeEntry) : Prop where
  spans : gap.Spans entry.span entry'.span
  symbols : List.Forall₂ (gap.Symbols entry.span.start entry'.span.start) entry.head.symbols
    entry'.head.symbols

/-- The same name, seen at the same place from the same distance. -/
structure Seen (gap : Gap) (seen seen' : VisibleSymbol) : Prop where
  name : seen'.symbol.name = seen.symbol.name
  kind : seen'.symbol.kind = seen.symbol.kind
  documentation : seen'.symbol.documentation = seen.symbol.documentation
  spans : gap.Spans seen.span seen'.span
  distance : seen'.distance = seen.distance

/-- The same is being typed at the same place. -/
structure Contexts (gap : Gap) (context context' : CompletionContext) : Prop where
  cursor : gap.Beside context.cursor context'.cursor
  typed : context'.typed = context.typed
  word : Option.Rel gap.Spans context.word context'.word

/-- What a cursor needs to know of the token that it is in: a word stands as far before it. -/
structure Under (gap : Gap) (cursor cursor' : Nat) (token token' : Token) : Prop where
  kind : token'.kind = token.kind
  text : token'.text = token.text
  stop : gap.Beside token.span.stop token'.span.stop
  word : token.kind.isWord = true → gap.Beside token.span.start token'.span.start ∧
    cursor' - token'.span.start = cursor - token.span.start

variable {gap : Gap} {cursor cursor' : Nat}

/-! ## What can be seen -/

theorem contains_eq {entry entry' : ScopeEntry} (beside : gap.Beside cursor cursor')
    (closed : entry'.head.closed = entry.head.closed) (spans : gap.Spans entry.span entry'.span) :
    entry'.contains cursor' = entry.contains cursor := by
  simp only [ScopeEntry.contains, closed, spans.start.lt_iff beside, beside.lt_iff spans.stop,
    beside.le_iff spans.stop]

theorem Alike.contains {tree tree' : ScopeTree} (beside : gap.Beside cursor cursor')
    (alike : gap.Alike tree tree') : tree'.entry.contains cursor' = tree.entry.contains cursor := by
  cases alike with
  | node closed spans symbols inside => exact contains_eq beside closed spans
  | body start ends ends' =>
      refine contains_eq beside (ends'.2.1.trans ends.2.1.symm) ⟨start, ?_⟩
      simp only [ScopeTree.entry, ends.2.2, ends'.2.2]
      exact beside_stop

/-- No scope of the tree that ends where the gap does holds the cursor. -/
def Away (gap : Gap) (cursor : Nat) (tree : ScopeTree) : Prop :=
  ∀ node, Within tree node → Ends gap.stop node.entry → node.entry.contains cursor = false

theorem Away.branch {tree branch : ScopeTree} (away : gap.Away cursor tree)
    (member : branch ∈ tree.branches) : gap.Away cursor branch :=
  fun node within => away node (.head member within)

theorem away_after (past : Nat) (tree : ScopeTree) : gap.Away (past + gap.stop) tree := by
  intro node _ ends
  have behind : ¬past + gap.stop < node.entry.span.stop := by
    rw [ends.2.2]
    omega
  simp [ScopeEntry.contains, ends.2.1, behind]

mutual

/-- A scope that is alike, and the scopes inside it down to a cursor, are at the same places. -/
theorem descend_alike (beside : gap.Beside cursor cursor') :
    ∀ (tree tree' : ScopeTree) (outer outer' : List ScopeEntry),
    gap.Alike tree tree' → ¬Ends gap.stop tree.entry → gap.Away cursor tree →
    List.Forall₂ gap.Entries outer outer' →
    List.Forall₂ gap.Entries (descend cursor outer tree) (descend cursor' outer' tree')
  | .node entry branches, .node entry' branches', outer, outer', alike, entered, away, seen => by
    cases alike with
    | node closed spans symbols inside =>
        simp only [descend]
        exact descendAny_alike beside branches branches' _ _ inside
          (fun branch member => away.branch member) (.cons ⟨spans, symbols⟩ seen)
    | body start ends ends' => exact absurd ends entered

theorem descendAny_alike (beside : gap.Beside cursor cursor') :
    ∀ (branches branches' : List ScopeTree) (outer outer' : List ScopeEntry),
    List.Forall₂ gap.Alike branches branches' → (∀ branch ∈ branches, gap.Away cursor branch) →
    List.Forall₂ gap.Entries outer outer' →
    List.Forall₂ gap.Entries (descendAny cursor outer branches) (descendAny cursor' outer' branches')
  | [], [], _, _, _, _, seen => seen
  | branch :: rest, branch' :: rest', outer, outer', alike, away, seen => by
    cases alike with
    | cons here later =>
        have apart := away branch List.mem_cons_self
        simp only [descendAny, here.contains beside]
        split
        · next inside =>
            refine descend_alike beside branch branch' outer outer' here (fun ends => ?_) apart seen
            have outside := apart branch .refl ends
            simp [inside] at outside
        · exact descendAny_alike beside rest rest' outer outer' later
            (fun branch member => away branch (List.mem_cons_of_mem _ member)) seen
  | [], _ :: _, _, _, alike, _, _ => nomatch alike
  | _ :: _, [], _, _, alike, _, _ => nomatch alike

end

theorem seen_symbols {entry entry' : ScopeEntry} (entries : gap.Entries entry entry')
    (distance : Nat) :
    List.Forall₂ gap.Seen
      (entry.symbols.map fun (symbol, span) => ⟨symbol, entry.id, span, distance⟩)
      (entry'.symbols.map fun (symbol, span) => ⟨symbol, entry'.id, span, distance⟩) := by
  simp only [ScopeEntry.symbols, List.map_map, List.forall₂_map_left_iff, List.forall₂_map_right_iff]
  exact entries.symbols.imp fun symbol symbol' same =>
    ⟨same.name, same.kind, same.documentation, same.spans, rfl⟩

theorem visible_alike {tree tree' : ScopeTree}
    (chains : List.Forall₂ gap.Entries (tree.chain cursor) (tree'.chain cursor')) :
    List.Forall₂ gap.Seen (tree.visible cursor) (tree'.visible cursor') := by
  have numbered (distance : Nat) {entries entries' : List ScopeEntry}
      (chains : List.Forall₂ gap.Entries entries entries') :
      List.Forall₂ (fun here here' => gap.Entries here.1 here'.1 ∧ here.2 = here'.2)
        (entries.zipIdx distance) (entries'.zipIdx distance) := by
    induction chains generalizing distance with
    | nil => exact .nil
    | cons here _ ih => exact .cons ⟨here, rfl⟩ (ih (distance + 1))
  refine List.rel_flatMap (numbered 0 chains) ?_
  rintro ⟨entry, distance⟩ ⟨entry', _⟩ ⟨entries, rfl⟩
  exact seen_symbols entries distance

theorem all_eq {tree tree' : ScopeTree} {context context' : CompletionContext}
    (contexts : gap.Contexts context context')
    (visible : List.Forall₂ gap.Seen (tree.visible context.cursor) (tree'.visible context'.cursor))
    (vocabulary : Vocabulary) :
    Offer.all tree' vocabulary context' = Offer.all tree vocabulary context := by
  have typing {seen seen' : VisibleSymbol} (same : gap.Seen seen seen') :
      (context.word != some seen.span) = true ↔ (context'.word != some seen'.span) = true := by
    have word := contexts.word
    generalize context.word = word at word
    generalize context'.word = word' at word
    cases word with
    | none => simp
    | some spans => simpa using not_congr (spans.eq_iff same.spans)
  have named {seen seen' : List VisibleSymbol} (same : List.Forall₂ gap.Seen seen seen') :
      seen'.map (fun seen => (⟨seen.symbol.name, seen.symbol.kind, seen.symbol.documentation,
        .scope seen.distance⟩ : Offer)) = seen.map fun seen => ⟨seen.symbol.name, seen.symbol.kind,
          seen.symbol.documentation, .scope seen.distance⟩ := by
    induction same with
    | nil => rfl
    | cons here _ ih =>
        simp only [List.map_cons, here.name, here.kind, here.documentation, here.distance, ih]
  simp only [Offer.all, named (List.rel_filter (fun _ _ same => typing same) visible)]

/-! ## What is being typed -/

theorem slice_of_mem_lex {text : String} {token : Token} (member : token ∈ lex text)
    (within : cursor ≤ token.span.stop) :
    slice token.span.start cursor text.toList =
      before (cursor - token.span.start) token.text.toList := by
  obtain ⟨front, back, whole, place, -⟩ := split_of_mem_lex member
  simp only [place, byteLength_append] at within ⊢
  rw [slice, whole, List.append_assoc, after_byteLength_append, before_append_of_le (by omega)]

theorem Under.isComplete {token token' : Token} (under : gap.Under cursor cursor' token token') :
    MuCompletion.isComplete token' = MuCompletion.isComplete token := by
  simp only [MuCompletion.isComplete, under.kind, under.text]

theorem Under.shift (past : Nat) (token : Token) :
    gap.Under (past + gap.stop) (past + gap.stop') (token.shift gap.stop)
      (token.shift gap.stop') := by
  refine ⟨rfl, rfl, (spans_shift token.span).stop, fun _ => ⟨(spans_shift token.span).start, ?_⟩⟩
  simp [Nat.add_sub_add_right]

theorem contexts_of_under {text text' : String}
    (floors : gap.Beside (floorOffset cursor text.toList) (floorOffset cursor' text'.toList))
    (found : floorOffset cursor text.toList ≠ 0 → Option.Rel
      (gap.Under (floorOffset cursor text.toList) (floorOffset cursor' text'.toList))
      ((lex text).find? (floorOffset cursor text.toList ≤ ·.span.stop))
      ((lex text').find? (floorOffset cursor' text'.toList ≤ ·.span.stop))) :
    Option.Rel gap.Contexts (CompletionContext.at? text (lex text) cursor)
      (CompletionContext.at? text' (lex text') cursor') := by
  simp only [CompletionContext.at?]
  generalize place : floorOffset cursor text.toList = floored at *
  generalize place' : floorOffset cursor' text'.toList = floored' at *
  have outside : gap.Contexts ⟨floored, "", none⟩ ⟨floored', "", none⟩ := ⟨floors, rfl, .none⟩
  have zero : floored = 0 ↔ floored' = 0 := floors.eq_iff (.before (Nat.zero_le _))
  by_cases first : floored = 0
  · rw [if_pos first, if_pos (zero.mp first)]
    exact .some outside
  · rw [if_neg first, if_neg (mt zero.mpr first)]
    replace found := found first
    generalize here : (lex text).find? (floored ≤ ·.span.stop) = met at found ⊢
    generalize here' : (lex text').find? (floored' ≤ ·.span.stop) = met' at found ⊢
    cases found with
    | none => exact .some outside
    | @some token token' under =>
        have within : floored ≤ token.span.stop := by simpa using List.find?_some here
        have within' : floored' ≤ token'.span.stop := by simpa using List.find?_some here'
        have ends := floors.eq_iff under.stop
        simp only [under.kind, under.isComplete, ends]
        cases word : token.kind.isWord with
        | true =>
            obtain ⟨start, typed⟩ := under.word word
            simp only [if_true]
            refine .some ⟨floors, ?_, .some ⟨start, under.stop⟩⟩
            simp only [slice_of_mem_lex (List.mem_of_find?_eq_some here) within,
              slice_of_mem_lex (List.mem_of_find?_eq_some here') within', under.text, typed]
        | false =>
            simp only [Bool.false_eq_true, if_false]
            split
            · split
              · exact .some outside
              · exact .none
            · exact .some outside

end Gap

/-! ## The texts side by side -/

namespace Tiles

variable {start stop offset : Nat} {tokens : List Token}

theorem find?_stop_none (tiles : Tiles start tokens stop) (behind : stop < offset) :
    tokens.find? (offset ≤ ·.span.stop) = none := by
  refine List.find?_eq_none.mpr fun token member => ?_
  have inside := tiles.of_mem member
  simp only [decide_eq_true_eq]
  omega

theorem find?_stop_some (tiles : Tiles start tokens stop) (behind : start < offset)
    (within : offset ≤ stop) :
    ∃ token ∈ tokens, tokens.find? (offset ≤ ·.span.stop) = some token := by
  obtain ⟨token, member, after, before⟩ := tiles.exists_holding behind within
  exact ⟨token, member, tiles.find?_inside member after before⟩

end Tiles

section

variable {front inside inside' back : String}
  {before before' between between' after after' : List Token} {opening opening' closing closing' : Token} {cursor cursor' : Nat}

theorem floorOffset_embrace_before (early : cursor ≤ byteLength front.toList) (inside : String) :
    floorOffset cursor (embrace front inside back).toList = floorOffset cursor front.toList := by
  rw [toList_embrace, List.append_assoc, floorOffset_append_of_le early]

theorem floorOffset_embrace_after (past : Nat) (front inside back : String) :
    floorOffset (past + (byteLength front.toList + byteLength inside.toList + 2))
        (embrace front inside back).toList =
      floorOffset past back.toList + (byteLength front.toList + byteLength inside.toList + 2) := by
  rw [toList_embrace, ← byteLength_body, floorOffset_add_byteLength]

theorem beside_floor (back : String)
    (beside : (bodyGap front inside inside').Beside cursor cursor') :
    (bodyGap front inside inside').Beside (floorOffset cursor (embrace front inside back).toList)
      (floorOffset cursor' (embrace front inside' back).toList) := by
  cases beside with
  | before early =>
      rw [floorOffset_embrace_before early, floorOffset_embrace_before early]
      exact .before (Nat.le_trans (floorOffset_le _ _) early)
  | after past =>
      simp only [bodyGap, floorOffset_embrace_after]
      exact .after _

theorem away_floor {tree : ScopeTree} (back : String)
    (beside : (bodyGap front inside inside').Beside cursor cursor')
    (away : (bodyGap front inside inside').Away cursor tree) :
    (bodyGap front inside inside').Away (floorOffset cursor (embrace front inside back).toList)
      tree := by
  cases beside with
  | before early =>
      intro node within ends
      have outside := away node within ends
      have below := floorOffset_le cursor (embrace front inside back).toList
      have filled := (bodyGap front inside inside').filled
      simp only [ScopeEntry.contains, ends.2.1, ends.2.2, if_true, Bool.and_eq_false_iff,
        decide_eq_false_iff_not, Nat.not_lt] at outside ⊢
      omega
  | after past =>
      simp only [bodyGap, floorOffset_embrace_after]
      exact (bodyGap front inside inside').away_after _ tree

namespace Embraced

theorem find?_before (embraced : Embraced front inside back before opening between closing after)
    (behind : 0 < cursor) (early : cursor ≤ byteLength front.toList) :
    ∃ token ∈ lex front, (lex front).find? (cursor ≤ ·.span.stop) = some token ∧
      (lex (embrace front inside back)).find? (cursor ≤ ·.span.stop) = some token := by
  obtain ⟨token, member, found⟩ := (lex_tiles front).find?_stop_some behind early
  refine ⟨token, member, found, ?_⟩
  rw [embraced.tokens, embraced.streams.1, List.append_assoc, List.find?_append, found,
    Option.some_or]

theorem find?_closing (embraced : Embraced front inside back before opening between closing after) :
    (lex (embrace front inside back)).find? (closing.span.stop ≤ ·.span.stop) = some closing := by
  obtain ⟨-, -, -, whole⟩ := embraced.streams
  rw [← List.append_assoc] at whole
  obtain ⟨mid, first, here, filled, -⟩ := Tiles.append_iff.mp whole
  have none := first.find?_stop_none filled
  rw [embraced.tokens, ← List.append_assoc before, List.append_assoc, List.find?_append, none]
  simp

theorem find?_after (embraced : Embraced front inside back before opening between closing after)
    {past : Nat} (behind : 0 < past) :
    (lex (embrace front inside back)).find?
        (past + (byteLength front.toList + byteLength inside.toList + 2) ≤ ·.span.stop) =
      ((lex back).find? (past ≤ ·.span.stop)).map
        (·.shift ((byteLength front.toList + byteLength inside.toList + 2 : Nat) : Int)) := by
  obtain ⟨-, later, -, whole⟩ := embraced.streams
  rw [embraced.tokens, List.find?_append, whole.find?_stop_none (by omega), Option.none_or, later,
    List.find?_map]
  generalize byteLength front.toList + byteLength inside.toList + 2 = distance
  congr
  funext token
  simp only [Function.comp_apply, Token.span_shift, Span.stop_shift, Nat.add_le_add_iff_right]

end Embraced

/-- The cursors stand in tokens that are the same outside the body. -/
theorem under_embraced
    (embraced : Embraced front inside back before opening between closing after)
    (embraced' : Embraced front inside' back before' opening' between' closing' after')
    (beside : (bodyGap front inside inside').Beside cursor cursor') (behind : cursor ≠ 0) :
    Option.Rel ((bodyGap front inside inside').Under cursor cursor')
      ((lex (embrace front inside back)).find? (cursor ≤ ·.span.stop))
      ((lex (embrace front inside' back)).find? (cursor' ≤ ·.span.stop)) := by
  cases beside with
  | before early =>
      obtain ⟨token, member, found, here⟩ := embraced.find?_before (Nat.pos_of_ne_zero behind) early
      obtain ⟨token', -, found', here'⟩ := embraced'.find?_before (Nat.pos_of_ne_zero behind) early
      obtain rfl : token = token' := Option.some.inj (found.symm.trans found')
      obtain ⟨-, filled, ends⟩ := (lex_tiles front).of_mem member
      rw [here, here']
      refine .some ⟨rfl, rfl, .before ends, fun _ => ⟨.before ?_, rfl⟩⟩
      exact Nat.le_trans (Nat.le_of_lt filled) ends
  | after past =>
      cases past with
      | zero =>
          have found := embraced.find?_closing
          have found' := embraced'.find?_closing
          obtain ⟨mark, text⟩ := ScopeBuilder.step_of_mark embraced.closes
          obtain ⟨mark', text'⟩ := ScopeBuilder.step_of_mark embraced'.closes
          rw [embraced.ends] at found
          rw [embraced'.ends] at found'
          simp only [Nat.zero_add, bodyGap, found, found']
          refine .some ⟨mark'.trans mark.symm, text'.trans text.symm, ?_, fun word => ?_⟩
          · rw [embraced.ends, embraced'.ends]
            exact (bodyGap front inside inside').beside_stop
          · simp [mark, TokenKind.isWord] at word
      | succ past =>
          have found : (lex (embrace front inside back)).find?
              (past + 1 + (bodyGap front inside inside').stop ≤ ·.span.stop) = _ :=
            embraced.find?_after (Nat.succ_pos past)
          have found' : (lex (embrace front inside' back)).find?
              (past + 1 + (bodyGap front inside inside').stop' ≤ ·.span.stop) = _ :=
            embraced'.find?_after (Nat.succ_pos past)
          rw [found, found']
          cases (lex back).find? (past + 1 ≤ ·.span.stop) with
          | none => exact .none
          | some token => exact .some (.shift (past + 1) token)

/-- Outside of a scope that braces close, its body changes nothing: at a cursor before the scope, and
at the same place behind it, the completions are the same whatever the body is. -/
theorem complete_outside_body (body : HasBody front inside back) (body' : HasBody front inside' back)
    (beside : (bodyGap front inside inside').Beside cursor cursor')
    (away : (bodyGap front inside inside').Away cursor
      (ScopeTree.ofTokens (lex (embrace front inside back))))
    (vocabulary : Vocabulary) (limit : Nat) :
    complete (embrace front inside' back) (lex (embrace front inside' back))
        (.ofTokens (lex (embrace front inside' back))) cursor' vocabulary limit =
      complete (embrace front inside back) (lex (embrace front inside back))
        (.ofTokens (lex (embrace front inside back))) cursor vocabulary limit := by
  have alike := alike_embrace body body'
  obtain ⟨before, opening, between, closing, after, embraced⟩ := body
  obtain ⟨before', opening', between', closing', after', embraced'⟩ := body'
  have floors := beside_floor back beside
  have contexts := Gap.contexts_of_under floors (under_embraced embraced embraced' floors)
  generalize here : CompletionContext.at? (embrace front inside back)
    (lex (embrace front inside back)) cursor = found at contexts
  generalize here' : CompletionContext.at? (embrace front inside' back)
    (lex (embrace front inside' back)) cursor' = found' at contexts
  cases contexts with
  | none => simp only [complete, here, here']
  | @some context context' contexts =>
      have entered : ¬Gap.Ends (bodyGap front inside inside').stop
          (ScopeTree.ofTokens (lex (embrace front inside back))).entry :=
        fun ends => ends.1 (kind_ofTokens (embrace front inside back))
      have apart := away_floor back beside away
      rw [← CompletionContext.cursor_at? here] at apart
      have chains := Gap.descend_alike contexts.cursor _ _ [] [] alike entered apart .nil
      have offers := Gap.all_eq contexts (Gap.visible_alike chains) vocabulary
      simp only [complete, here, here', offers, contexts.typed]

end

/-- A brace in a literal does not close the body of a function. -/
theorem complete_outside_body_literal :
    complete "int x; function: f () \x7b\"\x7d\"\x7d x" (lex "int x; function: f () \x7b\"\x7d\"\x7d x")
        (.ofTokens (lex "int x; function: f () \x7b\"\x7d\"\x7d x")) 29 .builtin 50 =
      complete "int x; function: f () \x7b\x7d x" (lex "int x; function: f () \x7b\x7d x")
        (.ofTokens (lex "int x; function: f () \x7b\x7d x")) 26 .builtin 50 := by
  have body : HasBody "int x; function: f () " "" " x" :=
    ⟨lex "int x; function: f () ", ⟨.punctuation, "\x7b", ⟨22, 23⟩⟩, [],
      ⟨.punctuation, "\x7d", ⟨23, 24⟩⟩, [⟨.whitespace, " ", ⟨24, 25⟩⟩, ⟨.identifier, "x", ⟨25, 26⟩⟩],
      by decide +kernel, rfl, rfl, rfl, rfl, [], .nil⟩
  have body' : HasBody "int x; function: f () " "\"\x7d\"" " x" :=
    ⟨lex "int x; function: f () ", ⟨.punctuation, "\x7b", ⟨22, 23⟩⟩,
      [⟨.string, "\"\x7d\"", ⟨23, 26⟩⟩], ⟨.punctuation, "\x7d", ⟨26, 27⟩⟩,
      [⟨.whitespace, " ", ⟨27, 28⟩⟩, ⟨.identifier, "x", ⟨28, 29⟩⟩],
      by decide +kernel, rfl, rfl, rfl, rfl, [], .other (by decide) (by decide)⟩
  exact complete_outside_body body body' (.after 2) (Gap.away_after 2 _) .builtin 50

end MuCompletion
