import MuCompletion.Proofs.Scope.Paired
import MuCompletion.Proofs.Scope.Reattached
import MuCompletion.Proofs.Scope.Spared

/-! # What an update shares

An update carries over the outermost spared scopes of the old tree, each with everything inside it,
where the new text has nothing waiting when it comes to the place of the scope. Everything else is
made anew. What is carried over has the same text in both versions.
-/

namespace MuCompletion

open ScopeBuilder ScopeTree

/-- `image` stands in the new tree where the edit moves `kept`, an outermost spared scope of the old
tree, and a reading of the new tokens has nothing waiting there. -/
structure Image (tokens : List Token) (changed : Span) (delta : Int) (old new kept image : ScopeTree) :
    Prop where
  outermost : Outermost changed old kept
  inside : Inside new image
  moved : image.entry.span.start = kept.entry.movedStart changed delta
  idle : IdleAt tokens (kept.entry.movedStart changed delta)

/-- An update shares the images of the outermost spared scopes and all inside them, and nothing else.
The module is not among the spared scopes, since no brace closes it. -/
structure ExactSharing (text newText : String) (tokens : List Token) (changed : Span) (delta : Int)
    (update : ScopeUpdate) : Prop where
  shares_iff : ∀ node, Within update.tree node →
    ((∃ id, (node.entry.id, id) ∈ update.shared) ↔
      ∃ kept image, Image tokens changed delta (ofTokens (lex text)) update.tree kept image ∧
        Within image node)
  has_image : ∀ kept, Outermost changed (ofTokens (lex text)) kept →
    IdleAt tokens (kept.entry.movedStart changed delta) →
      ∃ image, Image tokens changed delta (ofTokens (lex text)) update.tree kept image ∧
        (image.entry.id, kept.entry.id) ∈ update.shared
  same : ∀ pair ∈ update.shared, ∃ node node', Within update.tree node ∧
    Within (ofTokens (lex text)) node' ∧ pair = (node.entry.id, node'.entry.id) ∧
      node.scope = node'.scope ∧
      Text.slice node.entry.span.start node.entry.span.stop newText.toList =
        Text.slice node'.entry.span.start node'.entry.span.stop text.toList

section

variable {text : String} {old : ScopeTree} {changed : Span} {delta : Int}

namespace Supply

variable {tokens : List Token} {reusable fewer : List (Nat × ScopeTree)}

theorem of_subset (supply : Supply tokens reusable) (subset : ∀ entry ∈ fewer, entry ∈ reusable) :
    Supply tokens fewer where
  spelled := by
    intro entry member
    exact supply.spelled entry (subset entry member)
  apart := by
    intro first member second member'
    exact supply.apart first (subset first member) second (subset second member')

theorem placed {image kept : ScopeTree} (supply : Supply (lex text) reusable)
    (inside : Inside (ofTokens (lex text)) image)
    (member : (image.entry.span.start, kept) ∈ reusable)
    (idle : IdleAt (lex text) image.entry.span.start) :
    Placed image.entry.span.start kept.scope image := by
  obtain ⟨node, inside', placed⟩ :=
    exists_node_of_idleAt (lex_tiles text) idle (supply.spelled _ member)
  have start : node.entry.span.start = image.entry.span.start := by rw [placed.span]
  obtain rfl := (nesting_ofTokens text).eq_of_start inside' inside start
  exact placed

theorem alone {around image kept kept' : ScopeTree} (supply : Supply (lex text) reusable)
    (outside : Inside (ofTokens (lex text)) around) (deeper : Inside around image)
    (member : (image.entry.span.start, kept) ∈ reusable)
    (idle : IdleAt (lex text) image.entry.span.start)
    (member' : (around.entry.span.start, kept') ∈ reusable)
    (idle' : IdleAt (lex text) around.entry.span.start) : False := by
  have nesting := nesting_ofTokens text
  have placed := (supply.placed (outside.trans deeper) member idle).span
  have placed' := (supply.placed outside member' idle').span
  have framed := nesting.start_lt outside deeper
  have filled := nesting.filled image (outside.trans deeper)
  rw [placed] at framed filled
  rw [placed'] at framed
  simp only at framed filled
  rcases supply.apart _ member _ member' with same | before | after
  · have start := (Prod.mk.inj same).1
    omega
  · simp only at before
    omega
  · simp only at after
    omega

end Supply

theorem mem_shared {pair : Nat × Nat}
    (supply : Supply (lex text) (reusableAll changed delta old.branches)) :
    pair ∈ (old.update (lex text) changed delta).shared ↔ ∃ kept image,
      (image.entry.span.start, kept) ∈ reusableAll changed delta old.branches ∧
        IdleAt (lex text) image.entry.span.start ∧ Inside (ofTokens (lex text)) image ∧
        pair ∈ pairIds image kept := by
  have tree := update_eq_of_spelled (lex_tiles text) supply.spelled
  have putting := @mem_reattached _ _ _ (lex_tiles text) supply
  have shared : (old.update (lex text) changed delta).shared =
      ((ofTokens (lex text)).sharedWith (ScopeBuilder.initial.run
        (reusableAll changed delta old.branches) (lex text)).reattached).mergeSort
          fun first second => first.1 ≤ second.1 := by
    rw [← tree]
    rfl
  rw [shared, List.mem_mergeSort]
  generalize (ScopeBuilder.initial.run (reusableAll changed delta old.branches)
    (lex text)).reattached = reattached at putting
  have supply' : Supply (lex text) reattached :=
    supply.of_subset fun _ member => (putting.mp member).1
  have looked : ∀ {start kept}, reattached.lookup start = some kept ↔
      (start, kept) ∈ reusableAll changed delta old.branches ∧ IdleAt (lex text) start := by
    intro start kept
    rw [supply'.lookup_iff (lex_tiles text), putting]
  rw [mem_sharedWith_iff]
  · constructor
    · rintro ⟨image, kept, inside, found, paired⟩
      obtain ⟨member, idle⟩ := looked.mp found
      exact ⟨kept, image, member, idle, inside, paired⟩
    · rintro ⟨kept, image, member, idle, inside, paired⟩
      exact ⟨image, kept, inside, looked.mpr ⟨member, idle⟩, paired⟩
  · intro around image outside deeper some
    obtain ⟨kept, found⟩ := Option.ne_none_iff_exists'.mp some
    obtain ⟨member, idle⟩ := looked.mp found
    cases found' : reattached.lookup around.entry.span.start with
    | none => rfl
    | some kept' =>
        obtain ⟨member', idle'⟩ := looked.mp found'
        exact (supply.alone outside deeper member idle member' idle').elim

end

namespace Edit.Splits

variable {edit : Edit} {text : String} {front removed back : List Char}

theorem supply (split : edit.Splits text front removed back)
    (splice : Splice front removed edit.insert.toList back) :
    Supply (lex (edit.apply text))
      (reusableAll splice.relexed.old edit.change.delta (ofTokens (lex text)).branches) where
  spelled := by
    intro entry member
    have outside := outside_ofTokens _ _ (lex_tiles text) member
    rw [lex, split.text] at outside
    have spelled := splice.spelled split.delta_eq outside
    rwa [splice.tokens_eq split.delta_eq, ← split.toList_apply] at spelled
  apart := by
    intro first member second member'
    have nesting := nesting_ofTokens text
    obtain ⟨kept, outermost, rfl⟩ := (mem_reusableAll nesting).mp member
    obtain ⟨kept', outermost', rfl⟩ := (mem_reusableAll nesting).mp member'
    have moves : (splice.relexed.old.start : Int) ≤ splice.relexed.old.stop + edit.change.delta := by
      have ordered := splice.settled_le_newStop
      have moved := splice.newStop_eq_shift split.delta_eq
      simp only [Splice.relexed]
      omega
    rcases outermost.moved_apart nesting outermost' moves with rfl | apart
    · exact .inl rfl
    · exact .inr apart

/-- The text of a spared scope, and of any part of it, moves with the scope. -/
theorem slice_moved (split : edit.Splits text front removed back)
    (splice : Splice front removed edit.insert.toList back) {entry : ScopeEntry}
    (spared : entry.Spared splice.relexed.old) {offset length : Nat}
    (within : entry.span.start + offset + length ≤ entry.span.stop) :
    Text.slice (entry.movedStart splice.relexed.old edit.change.delta + offset)
        (entry.movedStart splice.relexed.old edit.change.delta + offset + length)
        (edit.apply text).toList =
      Text.slice (entry.span.start + offset) (entry.span.start + offset + length) text.toList := by
  have moved := splice.newStop_eq_shift split.delta_eq
  rw [split.toList_apply, split.text]
  by_cases before : entry.span.stop ≤ splice.relexed.old.start
  · rw [ScopeEntry.movedStart, if_pos before]
    exact splice.slice_before (Nat.le_add_right _ _) (Nat.le_trans within before)
  · have behind : splice.oldStop ≤ entry.span.start := spared.2.resolve_left before
    obtain ⟨distance, start⟩ := Nat.exists_eq_add_of_le' behind
    have start' : entry.movedStart splice.relexed.old edit.change.delta =
        distance + splice.newStop := by
      rw [ScopeEntry.movedStart, if_neg before, shiftOffset]
      omega
    have slices := splice.slice_behind (distance + offset) (distance + offset + length)
    simp only [Nat.add_right_comm _ _ splice.newStop, Nat.add_right_comm _ _ splice.oldStop] at slices
    rw [start, start']
    exact slices

end Edit.Splits

section

variable {text newText : String} {changed : Span} {delta : Int} {kept : ScopeTree}

theorem Outermost.placed (outermost : Outermost changed (ofTokens (lex text)) kept) :
    Placed kept.entry.span.start kept.scope kept := by
  obtain ⟨start, scope, placed⟩ := (Placed.ofTokens (lex text)).within outermost.inside.to_reflTransGen
  rwa [placed.span, placed.scope_eq]

theorem mem_shared_iff_image {pair : Nat × Nat} (supply : Supply (lex newText)
      (reusableAll changed delta (ofTokens (lex text)).branches)) :
    pair ∈ ((ofTokens (lex text)).update (lex newText) changed delta).shared ↔
      ∃ kept image, Image (lex newText) changed delta (ofTokens (lex text)) (ofTokens (lex newText))
        kept image ∧ pair ∈ pairIds image kept := by
  have nesting := nesting_ofTokens text
  rw [mem_shared supply]
  constructor
  · rintro ⟨kept, image, member, idle, inside, paired⟩
    obtain ⟨kept', outermost, same⟩ := (mem_reusableAll nesting).mp member
    obtain ⟨moved, rfl⟩ := Prod.mk.inj same
    exact ⟨kept, image, ⟨outermost, inside, moved, moved ▸ idle⟩, paired⟩
  · rintro ⟨kept, image, is, paired⟩
    have member := is.outermost.mem_reusableAll nesting delta
    refine ⟨kept, image, is.moved ▸ member, is.moved ▸ is.idle, is.inside, paired⟩

/-- Where nothing waits in the new text, an outermost spared scope has an image. -/
theorem exists_image (supply : Supply (lex newText)
      (reusableAll changed delta (ofTokens (lex text)).branches))
    (outermost : Outermost changed (ofTokens (lex text)) kept)
    (idle : IdleAt (lex newText) (kept.entry.movedStart changed delta)) :
    ∃ image, Image (lex newText) changed delta (ofTokens (lex text)) (ofTokens (lex newText)) kept
      image := by
  have member := outermost.mem_reusableAll (nesting_ofTokens text) delta
  obtain ⟨image, inside, placed⟩ :=
    exists_node_of_idleAt (lex_tiles newText) idle (supply.spelled _ member)
  exact ⟨image, outermost, inside, by rw [placed.span], idle⟩

theorem Image.placed {image : ScopeTree} (is : Image (lex newText) changed delta (ofTokens (lex text))
      (ofTokens (lex newText)) kept image)
    (supply : Supply (lex newText) (reusableAll changed delta (ofTokens (lex text)).branches)) :
    Placed image.entry.span.start kept.scope image := by
  apply supply.placed is.inside
  · rw [is.moved]
    exact is.outermost.mem_reusableAll (nesting_ofTokens text) delta
  · rw [is.moved]
    exact is.idle

end

theorem Edit.Splits.same_of_paired {edit : Edit} {text : String} {front removed back : List Char}
    (split : edit.Splits text front removed back)
    (splice : Splice front removed edit.insert.toList back) {kept image node old : ScopeTree}
    (is : Image (lex (edit.apply text)) splice.relexed.old edit.change.delta (ofTokens (lex text))
      (ofTokens (lex (edit.apply text))) kept image)
    (paired : Paired image kept node old) :
    node.scope = old.scope ∧
      Text.slice node.entry.span.start node.entry.span.stop (edit.apply text).toList =
        Text.slice old.entry.span.start old.entry.span.stop text.toList := by
  have around := is.placed (split.supply splice)
  obtain ⟨offset, scope, placed, placed'⟩ := paired.placed around is.outermost.placed
  have inside := (nesting_ofTokens text).span_le is.outermost.inside paired.within.2
  constructor
  · rw [placed.scope_eq, placed'.scope_eq]
  · have slices := split.slice_moved splice is.outermost.spared (placed'.span ▸ inside.2)
    rw [placed.span, placed'.span, is.moved]
    exact slices

theorem Edit.Splits.exactSharing {edit : Edit} {text : String} {front removed back : List Char}
    (split : edit.Splits text front removed back)
    (splice : Splice front removed edit.insert.toList back) :
    ExactSharing text (edit.apply text) (lex (edit.apply text)) splice.relexed.old edit.change.delta
      ((ofTokens (lex text)).update (lex (edit.apply text)) splice.relexed.old edit.change.delta) := by
  have supply := split.supply splice
  have tree := update_eq_of_spelled (lex_tiles (edit.apply text)) supply.spelled
  constructor
  · intro node within
    rw [tree] at within ⊢
    constructor
    · rintro ⟨id, shared⟩
      obtain ⟨kept, image, is, listed⟩ := (mem_shared_iff_image supply).mp shared
      obtain ⟨node', old, paired, same⟩ := (mem_pairIds image kept _).mp listed
      have deeper := paired.within.1
      obtain rfl : node = node' :=
        eq_of_id within (is.inside.to_reflTransGen.trans deeper) (Prod.mk.inj same).1
      exact ⟨kept, image, is, deeper⟩
    · rintro ⟨kept, image, is, deeper⟩
      obtain ⟨old, paired⟩ := exists_paired (is.placed supply) is.outermost.placed deeper
      have listed := (mem_pairIds image kept _).mpr ⟨node, old, paired, rfl⟩
      exact ⟨old.entry.id, (mem_shared_iff_image supply).mpr ⟨kept, image, is, listed⟩⟩
  · intro kept outermost idle
    obtain ⟨image, is⟩ := exists_image supply outermost idle
    have listed := (mem_pairIds image kept _).mpr ⟨image, kept, .here image kept, rfl⟩
    rw [tree]
    exact ⟨image, is, (mem_shared_iff_image supply).mpr ⟨kept, image, is, listed⟩⟩
  · intro pair shared
    obtain ⟨kept, image, is, listed⟩ := (mem_shared_iff_image supply).mp shared
    obtain ⟨node, old, paired, rfl⟩ := (mem_pairIds image kept _).mp listed
    obtain ⟨deeper, deeper'⟩ := paired.within
    obtain ⟨scope, slices⟩ := split.same_of_paired splice is paired
    have within := is.inside.to_reflTransGen.trans deeper
    rw [← tree] at within
    exact ⟨node, old, within, is.outermost.inside.to_reflTransGen.trans deeper', rfl, scope, slices⟩

/-- After an edit that fits its text, and whatever region was scanned again, an update shares exactly
the images of the outermost spared scopes with the tree of the old text, and each shared scope has the
same text in both versions. -/
theorem update_exactSharing {edit : Edit} {text : String} (fits : edit.fits text = true)
    (region : Span) :
    let relexed := relex (lex text) (edit.apply text) edit.change region
    ExactSharing text (edit.apply text) relexed.2 relexed.1.old edit.change.delta
      ((ofTokens (lex text)).update relexed.2 relexed.1.old edit.change.delta) := by
  obtain ⟨front, removed, back, split⟩ := Edit.fits_iff.mp fits
  obtain ⟨splice, spliced⟩ := split.relex_eq region
  rw [splice.tokens_eq split.delta_eq, ← split.toList_apply] at spliced
  intro relexed
  rw [show relexed = _ from spliced]
  exact split.exactSharing splice

/-- A number replaced between two blocks: the one before it stays, and the one behind it moves. -/
theorem update_exactSharing_blocks :
    (⟨6, 7, "23"⟩ : Edit).fits "\x7b \x7d 0 1 \x7b let x \x7d" = true ∧
      ExactSharing "\x7b \x7d 0 1 \x7b let x \x7d" "\x7b \x7d 0 23 \x7b let x \x7d"
        (relex (lex "\x7b \x7d 0 1 \x7b let x \x7d") "\x7b \x7d 0 23 \x7b let x \x7d"
          (⟨6, 7, "23"⟩ : Edit).change ⟨6, 7⟩).2
        (relex (lex "\x7b \x7d 0 1 \x7b let x \x7d") "\x7b \x7d 0 23 \x7b let x \x7d"
          (⟨6, 7, "23"⟩ : Edit).change ⟨6, 7⟩).1.old 1
        ((ofTokens (lex "\x7b \x7d 0 1 \x7b let x \x7d")).update
          (relex (lex "\x7b \x7d 0 1 \x7b let x \x7d") "\x7b \x7d 0 23 \x7b let x \x7d"
            (⟨6, 7, "23"⟩ : Edit).change ⟨6, 7⟩).2
          (relex (lex "\x7b \x7d 0 1 \x7b let x \x7d") "\x7b \x7d 0 23 \x7b let x \x7d"
            (⟨6, 7, "23"⟩ : Edit).change ⟨6, 7⟩).1.old 1) := by
  have fits : (⟨6, 7, "23"⟩ : Edit).fits "\x7b \x7d 0 1 \x7b let x \x7d" = true := by
    decide +kernel
  refine ⟨fits, ?_⟩
  exact update_exactSharing fits ⟨6, 7⟩

end MuCompletion
