import MuCompletion.Proofs.Text.Split
import MuCompletion.Proofs.Token.Lookahead

/-! # Token streams

The tokens of a text tile it: each begins where the one before ends, and none is empty. What follows
a token is scanned as if the text began there, so a final part of a token stream is the stream of a
final part of the text, and a stream moves with the text. Tokens that end at least one whole token
before an offset do not depend on what stands from that offset on.
-/

namespace MuCompletion

open Text

/-- Tokens without gaps between `start` and `stop`, none of them empty. -/
def Tiles (start : Nat) : List Token → Nat → Prop
  | [], stop => start = stop
  | token :: rest, stop =>
      token.span.start = start ∧ start < token.span.stop ∧ Tiles token.span.stop rest stop

namespace Tiles

theorem append_iff {start stop : Nat} {us ts : List Token} :
    Tiles start (us ++ ts) stop ↔ ∃ mid, Tiles start us mid ∧ Tiles mid ts stop := by
  induction us generalizing start with
  | nil => simp [Tiles]
  | cons token us ih =>
      simp only [List.cons_append, Tiles, ih]
      constructor
      · rintro ⟨here, some, mid, first, second⟩
        exact ⟨mid, ⟨here, some, first⟩, second⟩
      · rintro ⟨mid, ⟨here, some, first⟩, second⟩
        exact ⟨here, some, mid, first, second⟩

theorem behind {start mid stop : Nat} {us ts : List Token} (whole : Tiles start (us ++ ts) stop)
    (first : Tiles start us mid) : Tiles mid ts stop := by
  induction us generalizing start with
  | nil => exact first ▸ whole
  | cons token us ih => exact ih whole.2.2 first.2.2

theorem start_le_stop {start stop : Nat} {ts : List Token} (tiles : Tiles start ts stop) :
    start ≤ stop := by
  induction ts generalizing start with
  | nil => exact Nat.le_of_eq tiles
  | cons token ts ih =>
      have rest := ih tiles.2.2
      have some := tiles.2.1
      omega

theorem before {start stop : Nat} {us ts : List Token} {token : Token}
    (tiles : Tiles start (us ++ token :: ts) stop) : Tiles start us token.span.start := by
  obtain ⟨mid, first, here, -⟩ := append_iff.mp tiles
  exact here ▸ first

theorem of_mem {start stop : Nat} {ts : List Token} (tiles : Tiles start ts stop) {token : Token}
    (member : token ∈ ts) :
    start ≤ token.span.start ∧ token.span.start < token.span.stop ∧ token.span.stop ≤ stop := by
  induction ts generalizing start with
  | nil => cases member
  | cons head ts ih =>
      obtain ⟨here, some, rest⟩ := tiles
      rcases List.mem_cons.mp member with rfl | later
      · have ends := rest.start_le_stop
        omega
      · have inside := ih rest later
        omega

theorem apart {start stop : Nat} {ts : List Token} (tiles : Tiles start ts stop) {token other : Token}
    (member : token ∈ ts) (member' : other ∈ ts) :
    other = token ∨ other.span.stop ≤ token.span.start ∨ token.span.stop ≤ other.span.start := by
  induction ts generalizing start with
  | nil => cases member
  | cons head ts ih =>
      rcases List.mem_cons.mp member with rfl | later
      · rcases List.mem_cons.mp member' with rfl | later'
        · exact .inl rfl
        · exact .inr (.inr (tiles.2.2.of_mem later').1)
      · rcases List.mem_cons.mp member' with rfl | later'
        · exact .inr (.inl (tiles.2.2.of_mem later).1)
        · exact ih tiles.2.2 later later'

theorem append_inj {start mid : Nat} {us us' ts ts' : List Token} (tiles : Tiles start us mid)
    (tiles' : Tiles start us' mid) (same : us ++ ts = us' ++ ts') : us = us' ∧ ts = ts' := by
  induction us generalizing start us' with
  | nil =>
      cases us' with
      | nil => exact ⟨rfl, same⟩
      | cons token us' =>
          have begins : start = mid := tiles
          have ends := tiles'.2.2.start_le_stop
          have some := tiles'.2.1
          omega
  | cons token us ih =>
      cases us' with
      | nil =>
          have begins : start = mid := tiles'
          have ends := tiles.2.2.start_le_stop
          have some := tiles.2.1
          omega
      | cons token' us' =>
          simp only [List.cons_append, List.cons.injEq] at same
          obtain ⟨rfl, same⟩ := same
          obtain ⟨rfl, rfl⟩ := ih tiles.2.2 tiles'.2.2 same
          exact ⟨rfl, rfl⟩

theorem start_unique {start start' stop : Nat} {ts : List Token} (tiles : Tiles start ts stop)
    (tiles' : Tiles start' ts stop) : start = start' := by
  cases ts with
  | nil => exact Eq.trans tiles (Eq.symm tiles')
  | cons token ts => exact tiles.1.symm.trans tiles'.1

theorem stop_unique {start stop stop' : Nat} {ts : List Token} (tiles : Tiles start ts stop)
    (tiles' : Tiles start ts stop') : stop = stop' := by
  induction ts generalizing start with
  | nil => exact Eq.trans (Eq.symm tiles) tiles'
  | cons token ts ih => exact ih tiles.2.2 tiles'.2.2

theorem lastStop {start stop : Nat} {tokens : List Token} (tiles : Tiles start tokens stop)
    (some : tokens ≠ []) : MuCompletion.lastStop tokens = stop := by
  induction tokens generalizing start with
  | nil => exact absurd rfl some
  | cons token rest ih =>
      cases rest with
      | nil => exact tiles.2.2
      | cons next rest =>
          rw [← ih tiles.2.2 (List.cons_ne_nil _ _)]
          simp [MuCompletion.lastStop, List.getLast?_cons_cons]

theorem prefix_of_le {start mid mid' : Nat} {us us' ts ts' : List Token} (tiles : Tiles start us mid)
    (tiles' : Tiles start us' mid') (same : us ++ ts = us' ++ ts') (le : mid ≤ mid') : us <+: us' := by
  rcases List.append_eq_append_iff.mp same with ⟨more, rfl, -⟩ | ⟨more, rfl, -⟩
  · exact List.prefix_append us more
  · obtain ⟨cut, first, second⟩ := append_iff.mp tiles
    cases more with
    | nil => simp
    | cons token more =>
        have here := first.stop_unique tiles'
        have some := second.2.1
        have later := second.2.2.start_le_stop
        omega

theorem exists_holding {start stop offset : Nat} {ts : List Token} (tiles : Tiles start ts stop)
    (after : start < offset) (within : offset ≤ stop) :
    ∃ token ∈ ts, token.span.start < offset ∧ offset ≤ token.span.stop := by
  induction ts generalizing start with
  | nil =>
      have empty : start = stop := tiles
      omega
  | cons token ts ih =>
      by_cases here : offset ≤ token.span.stop
      · exact ⟨token, List.mem_cons_self, by rw [tiles.1]; exact after, here⟩
      · obtain ⟨other, member, holds⟩ := ih tiles.2.2 (by omega)
        exact ⟨other, List.mem_cons_of_mem _ member, holds⟩

theorem find?_inside {start stop offset : Nat} {ts : List Token} (tiles : Tiles start ts stop)
    {token : Token} (member : token ∈ ts) (after : token.span.start < offset)
    (within : offset ≤ token.span.stop) : ts.find? (offset ≤ ·.span.stop) = some token := by
  obtain ⟨earlier, later, rfl⟩ := List.append_of_mem member
  apply List.find?_eq_some_iff_append.mpr
  refine ⟨by simpa using within, earlier, later, rfl, ?_⟩
  intro other passed
  have before := (tiles.before.of_mem passed).2.2
  simp only [Bool.not_eq_true', decide_eq_false_iff_not]
  omega

theorem stop_le {start stop bound : Nat} {ts : List Token} (tiles : Tiles start ts stop)
    (begins : start ≤ bound) (ends : ∀ token ∈ ts, token.span.stop ≤ bound) : stop ≤ bound := by
  induction ts generalizing start with
  | nil => exact tiles ▸ begins
  | cons token ts ih =>
      exact ih tiles.2.2 (ends token List.mem_cons_self)
        fun other member => ends other (List.mem_cons_of_mem _ member)

theorem ascending {start stop : Nat} {ts : List Token} (tiles : Tiles start ts stop) :
    ts.Pairwise fun earlier later => earlier.span.start < later.span.start := by
  induction ts generalizing start with
  | nil => exact .nil
  | cons token ts ih =>
      refine .cons (fun later member => ?_) (ih tiles.2.2)
      have behind := (tiles.2.2.of_mem member).1
      have filled := (tiles.of_mem List.mem_cons_self).2.1
      omega

theorem stop_cases {start stop : Nat} {ts : List Token} (tiles : Tiles start ts stop) {token : Token}
    (member : token ∈ ts) :
    token.span.stop = stop ∨ ∃ next ∈ ts, next.span.start = token.span.stop := by
  induction ts generalizing start with
  | nil => cases member
  | cons head ts ih =>
      rcases List.mem_cons.mp member with rfl | later
      · cases ts with
        | nil => exact .inl tiles.2.2
        | cons next ts => exact .inr ⟨next, by simp, tiles.2.2.1⟩
      · rcases ih tiles.2.2 later with last | ⟨next, member, begins⟩
        · exact .inl last
        · exact .inr ⟨next, List.mem_cons_of_mem _ member, begins⟩

theorem map_shift_neg {start stop : Nat} {ts : List Token} (tiles : Tiles start ts stop) {delta : Int}
    (fits : 0 ≤ start + delta) : (ts.map (·.shift delta)).map (·.shift (-delta)) = ts := by
  have back : ∀ offset, start ≤ offset → shiftOffset (-delta) (shiftOffset delta offset) = offset := by
    intro offset late
    simp only [shiftOffset]
    omega
  rw [List.map_map]
  refine (List.map_congr_left fun token member => ?_).trans (List.map_id ts)
  obtain ⟨late, some, -⟩ := tiles.of_mem member
  simp [Token.shift, Span.shift, back _ late, back _ (Nat.le_of_lt (Nat.lt_of_le_of_lt late some))]

end Tiles

theorem lexFrom_nil (start : Nat) : lexFrom start [] = [] := by
  rw [lexFrom]

theorem lexFrom_cons (start : Nat) (first : Char) (cs : List Char) :
    lexFrom start (first :: cs) = (Lexeme.scan first cs).toToken start ::
      lexFrom (start + byteLength (Lexeme.scan first cs).chars) (Lexeme.scan first cs).rest := by
  rw [lexFrom]

/-- A token begins the stream of every text in which it is followed by something that looks alike. -/
theorem lexFrom_scan (start : Nat) {first : Char} {cs other : List Char}
    (alike : LooksLike other (Lexeme.scan first cs).rest) :
    lexFrom start ((Lexeme.scan first cs).chars ++ other) = (Lexeme.scan first cs).toToken start ::
      lexFrom (start + byteLength (Lexeme.scan first cs).chars) other := by
  have chars : (Lexeme.scan first cs).chars = first :: (Lexeme.scan first cs).chars.tail := rfl
  rw [chars, List.cons_append, lexFrom_cons, Lexeme.scan_congr alike]
  rfl

theorem lexFrom_eq_cons {start : Nat} {cs : List Char} (nonempty : cs ≠ []) :
    ∃ lexeme : Lexeme, lexeme.chars ≠ [] ∧ cs = lexeme.chars ++ lexeme.rest ∧
      (∀ other, LooksLike other lexeme.rest →
        lexFrom start (lexeme.chars ++ other) =
          lexeme.toToken start :: lexFrom (start + byteLength lexeme.chars) other) := by
  obtain ⟨first, cs, rfl⟩ := List.exists_cons_of_ne_nil nonempty
  exact ⟨Lexeme.scan first cs, Lexeme.chars_ne_nil first cs,
    (Lexeme.chars_append_rest first cs).symm, fun other alike => lexFrom_scan start alike⟩

theorem lexFrom_tiles (start : Nat) (cs : List Char) :
    Tiles start (lexFrom start cs) (start + byteLength cs) := by
  fun_induction lexFrom start cs with
  | case1 start => simp [Tiles]
  | case2 start first cs lexeme ih =>
      have whole := congrArg byteLength (Lexeme.chars_append_rest first cs)
      have some := byteLength_pos (Lexeme.chars_ne_nil first cs)
      rw [byteLength_append] at whole
      refine ⟨rfl, by simpa [Lexeme.toToken] using some, ?_⟩
      rw [← whole, ← Nat.add_assoc]
      exact ih

theorem lex_tiles (text : String) : Tiles 0 (lex text) (byteLength text.toList) := by
  have tiles := lexFrom_tiles 0 text.toList
  rwa [Nat.zero_add] at tiles

theorem tiles_of_append {cs rest : List Char} {us : List Token} {stop : Nat}
    (stream : lexFrom 0 cs = us ++ lexFrom stop rest)
    (ends : stop + byteLength rest = byteLength cs) : Tiles 0 us stop := by
  have tiles := lexFrom_tiles 0 cs
  rw [stream, Nat.zero_add, ← ends] at tiles
  obtain ⟨mid, before, behind⟩ := Tiles.append_iff.mp tiles
  rwa [← behind.start_unique (lexFrom_tiles stop rest)]

theorem lastStop_lex (text : String) : lastStop (lex text) = byteLength text.toList := by
  have tiles := lex_tiles text
  by_cases some : lex text = []
  · have same : Tiles 0 [] (byteLength text.toList) := some ▸ tiles
    rw [some]
    exact same
  · exact tiles.lastStop some

theorem flatMap_text_lexFrom (start : Nat) (cs : List Char) :
    (lexFrom start cs).flatMap (·.text.toList) = cs := by
  fun_induction lexFrom start cs with
  | case1 start => rfl
  | case2 start first cs lexeme ih =>
      rw [List.flatMap_cons, ih, Lexeme.toToken, String.toList_ofList]
      exact Lexeme.chars_append_rest first cs

theorem lexFrom_inj {start start' : Nat} {cs ds : List Char} (same : lexFrom start cs = lexFrom start' ds) :
    cs = ds := by
  rw [← flatMap_text_lexFrom start cs, same, flatMap_text_lexFrom]

theorem map_shift_lexFrom (delta : Int) (start : Nat) (cs : List Char) (fits : 0 ≤ start + delta) :
    (lexFrom start cs).map (·.shift delta) = lexFrom (shiftOffset delta start) cs := by
  fun_induction lexFrom start cs with
  | case1 start => simp [lexFrom_nil]
  | case2 start first cs lexeme ih =>
      have moved : ∀ n : Nat, shiftOffset delta (start + n) = shiftOffset delta start + n := by
        intro n
        simp only [shiftOffset]
        omega
      rw [lexFrom_cons, List.map_cons, ih (by omega), moved]
      simp only [Lexeme.toToken, Token.shift, Span.shift, moved, lexeme]

theorem lexFrom_eq_append {start : Nat} {cs : List Char} {us ts : List Token}
    (split : lexFrom start cs = us ++ ts) :
    ∃ front back, cs = front ++ back ∧ Tiles start us (start + byteLength front) ∧
      ts = lexFrom (start + byteLength front) back := by
  induction us generalizing start cs with
  | nil => exact ⟨[], cs, rfl, by simp [Tiles], by simpa using split.symm⟩
  | cons token us ih =>
      cases cs with
      | nil => simp [lexFrom_nil] at split
      | cons first cs =>
          rw [lexFrom_cons, List.cons_append, List.cons.injEq] at split
          obtain ⟨rfl, later⟩ := split
          obtain ⟨front, back, whole, tiles, rest⟩ := ih later
          refine ⟨(Lexeme.scan first cs).chars ++ front, back, ?_, ?_, ?_⟩
          · rw [List.append_assoc, ← whole, Lexeme.chars_append_rest]
          · have some := byteLength_pos (Lexeme.chars_ne_nil first cs)
            rw [byteLength_append, ← Nat.add_assoc]
            exact ⟨rfl, by simpa [Lexeme.toToken] using some, tiles⟩
          · rw [byteLength_append, ← Nat.add_assoc]
            exact rest

theorem lexFrom_of_append {start : Nat} {front back : List Char} {us ts : List Token}
    (split : lexFrom start (front ++ back) = us ++ ts)
    (tiles : Tiles start us (start + byteLength front)) : us = lexFrom start front := by
  induction us generalizing start front with
  | nil =>
      have ends : start = start + byteLength front := tiles
      obtain rfl : front = [] := byteLength_eq_zero (by omega)
      rw [lexFrom_nil]
  | cons token us ih =>
      have nonempty : front ++ back ≠ [] := by
        intro empty
        simp [empty, lexFrom_nil] at split
      obtain ⟨lexeme, -, whole, stream⟩ := @lexFrom_eq_cons start _ nonempty
      rw [whole, stream _ (LooksLike.refl _), List.cons_append, List.cons.injEq] at split
      obtain ⟨rfl, later⟩ := split
      have within := tiles.2.2.start_le_stop
      simp only [Lexeme.toToken] at within
      obtain ⟨loose, rfl, rest⟩ := append_eq_append_of_le whole.symm (by omega)
      have alike : LooksLike loose lexeme.rest := by
        rw [rest, LooksLike, List.take_append]
        exact List.prefix_append _ _
      rw [stream _ alike]
      have tiles' := tiles.2.2
      rw [byteLength_append, ← Nat.add_assoc] at tiles'
      rw [rest] at later
      exact congrArg _ (ih later tiles')

theorem head?_lexFrom {start : Nat} {cs : List Char} {token : Token} {rest : List Token}
    (stream : lexFrom start cs = token :: rest) : token.span.start = start := by
  have tiles := lexFrom_tiles start cs
  rw [stream] at tiles
  exact tiles.1

theorem head?_getD_lexFrom (place : Nat → Nat) {start stop : Nat} {cs : List Char}
    (empty : cs = [] → stop = place start) :
    ((lexFrom start cs).head?.map (place ·.span.start)).getD stop = place start := by
  cases cs with
  | nil => simpa [lexFrom_nil] using empty rfl
  | cons first cs => rw [lexFrom_cons]; rfl

theorem lexFrom_first_before {anchor start : Nat} {front back : List Char}
    (ends : 0 < ((lexFrom start (front ++ back)).takeWhile (·.span.stop < anchor)).length)
    (within : anchor ≤ start + byteLength front) :
    ∃ (lexeme : Lexeme) (loose : List Char), lexeme.chars ≠ [] ∧ loose ≠ [] ∧
      front = lexeme.chars ++ loose ∧
      ((lexFrom start (front ++ back)).takeWhile (·.span.stop < anchor)).length =
        ((lexFrom (start + byteLength lexeme.chars) (loose ++ back)).takeWhile
          (·.span.stop < anchor)).length + 1 ∧
      ∀ other, LooksLike other (loose ++ back) →
        lexFrom start (lexeme.chars ++ other) =
          lexeme.toToken start :: lexFrom (start + byteLength lexeme.chars) other := by
  have nonempty : front ++ back ≠ [] := by
    intro empty
    simp [empty, lexFrom_nil] at ends
  obtain ⟨lexeme, some, whole, stream⟩ := @lexFrom_eq_cons start _ nonempty
  have here := stream lexeme.rest (LooksLike.refl _)
  rw [← whole] at here
  have before : (lexeme.toToken start).span.stop < anchor := by
    by_cases before : (lexeme.toToken start).span.stop < anchor
    · exact before
    · rw [here, List.takeWhile_cons_of_neg (by simpa using before)] at ends
      exact absurd ends (Nat.lt_irrefl 0)
  have shorter : byteLength lexeme.chars < byteLength front := by
    simp only [Lexeme.toToken] at before
    omega
  obtain ⟨loose, rfl, rest⟩ := append_eq_append_of_le whole.symm (Nat.le_of_lt shorter)
  rw [rest] at here stream
  refine ⟨lexeme, loose, some, ?_, rfl, ?_, stream⟩
  · rintro rfl
    simp at shorter
  · rw [here, List.takeWhile_cons_of_pos (by simpa using before), List.length_cons]

/-- The first `count` tokens of a text do not depend on what stands from `anchor` on, if one more
token ends before `anchor`. -/
theorem lexFrom_settled {anchor count start : Nat} {front back : List Char}
    (ends : count < ((lexFrom start (front ++ back)).takeWhile (·.span.stop < anchor)).length)
    (within : anchor ≤ start + byteLength front) :
    ∃ ts settled loose, ts.length = count ∧ front = settled ++ loose ∧
      Tiles start ts (start + byteLength settled) ∧ ∀ other, lexFrom start (front ++ other) =
        ts ++ lexFrom (start + byteLength settled) (loose ++ other) := by
  induction count generalizing start front with
  | zero => exact ⟨[], [], front, rfl, rfl, by simp [Tiles], fun other => by simp⟩
  | succ count ih =>
      obtain ⟨lexeme, loose, filled, -, rfl, counted, stream⟩ :=
        lexFrom_first_before (Nat.zero_lt_of_lt ends) within
      rw [counted] at ends
      have later := Nat.lt_of_succ_lt_succ ends
      rw [byteLength_append, ← Nat.add_assoc] at within
      -- The token after this one also ends before the anchor, so two characters stand in between.
      have long : 2 ≤ loose.length := by
        obtain ⟨next, more, some, some', rfl, -, -⟩ :=
          lexFrom_first_before (Nat.zero_lt_of_lt later) within
        have first := List.length_pos_iff.mpr some
        have second := List.length_pos_iff.mpr some'
        rw [List.length_append]
        omega
      obtain ⟨ts, settled, loose', length, rfl, tiles, stream'⟩ := ih later within
      refine ⟨lexeme.toToken start :: ts, lexeme.chars ++ settled, loose', by simp [length],
        by simp, ?_, fun other => ?_⟩
      · have some := byteLength_pos filled
        rw [byteLength_append, ← Nat.add_assoc]
        exact ⟨rfl, by simpa [Lexeme.toToken] using some, tiles⟩
      · rw [List.append_assoc, stream _ (LooksLike.of_long long back other), stream',
          byteLength_append, Nat.add_assoc]
        rfl

end MuCompletion
