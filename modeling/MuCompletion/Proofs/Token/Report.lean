import MuCompletion.Proofs.Token.Relex

/-! # What relexing reports

The report of relexing names the tokens it took out and those it put in their place, with the bytes
that both cover. Scopes are carried over an edit by this report alone, so it has to be exact: all
else is old tokens, unchanged in front and moved behind, the range holds the edit and the region that
was asked for, and behind both it ends at the first place where an old and a new token begin together.
-/

namespace MuCompletion

open Text

/-- What relexing `text` after an edit has to report, with the tokens that come out. -/
structure Relexed.Accurate (edit : Edit) (text : String) (region : Span) (report : Relexed)
    (tokens : List Token) : Prop where
  within : report.first + report.replaced ≤ (lex text).length ∧
    report.first + report.produced ≤ tokens.length
  before : tokens.take report.first = (lex text).take report.first
  behind : tokens.drop (report.first + report.produced) =
    ((lex text).drop (report.first + report.replaced)).map (·.shift edit.change.delta)
  kept : Tiles 0 ((lex text).take report.first) report.old.start
  old : Tiles report.old.start (((lex text).drop report.first).take report.replaced) report.old.stop
  new : Tiles report.new.start ((tokens.drop report.first).take report.produced) report.new.stop
  start_eq : report.new.start = report.old.start
  /-- The replaced range begins no later than the edit and the region. -/
  start_le : report.old.start ≤ edit.start ∧ report.old.start ≤ region.start
  /-- It ends no earlier than the edit and the part of the region within the text. -/
  le_stop : edit.stop ≤ report.old.stop ∧
    min region.stop (byteLength text.toList) ≤ report.old.stop
  le_newStop : edit.change.newStop ≤ report.new.stop
  length : (report.new.length : Int) = report.old.length + edit.change.delta
  /-- No produced token behind the edit and the region could have been an old one. -/
  minimal : ∀ token ∈ (tokens.drop report.first).take report.produced,
    edit.change.newStop ≤ token.span.start →
    (min region.stop (byteLength text.toList) : Int) + edit.change.delta ≤ token.span.start →
    ∀ other ∈ lex text, (other.span.start : Int) + edit.change.delta ≠ token.span.start ∧
      (other.span.stop : Int) + edit.change.delta ≠ token.span.start

theorem Edit.newStop_eq_stop_add (edit : Edit) :
    (edit.change.newStop : Int) = edit.stop + edit.change.delta := by
  simp only [change, TextChange.between]
  omega

namespace Edit.Splits

variable {edit : Edit} {text : String} {front removed back : List Char}

theorem start_le_stop (split : edit.Splits text front removed back) : edit.start ≤ edit.stop := by
  rw [← split.start, ← split.stop, byteLength_append]
  exact Nat.le_add_right _ _

theorem oldStop_le (split : edit.Splits text front removed back)
    (splice : Splice front removed edit.insert.toList back) : edit.stop ≤ splice.oldStop :=
  split.stop ▸ splice.stop_le_oldStop

theorem region_le_oldStop (split : edit.Splits text front removed back)
    {splice : Splice front removed edit.insert.toList back} {region : Span}
    (meets : splice.MeetsFrom (max edit.change.newStop (shiftOffset edit.change.delta
        (min (max region.stop edit.stop) (byteLength text.toList)))) edit.change.delta) :
    min region.stop (byteLength text.toList) ≤ splice.oldStop := by
  have moved := splice.newStop_eq_shift split.delta_eq
  rcases meets.late with finished | late
  · have ends := splice.oldStop_eq
    rw [finished, byteLength_nil, ← split.text] at ends
    omega
  · have beyond := Nat.le_trans (Nat.le_max_right _ _) late
    simp only [shiftOffset] at beyond
    omega

/-- A new token behind the edit that begins where no old token from the splice on does begins where no
old token does at all: those in front of the splice end before the edit. -/
theorem start_ne (split : edit.Splits text front removed back)
    {splice : Splice front removed edit.insert.toList back} (early : byteLength splice.settled ≤ edit.start)
    {place : Nat} (behind : edit.change.newStop ≤ place)
    (parted : ∀ other ∈ splice.replaced ++ lexFrom splice.oldStop splice.rest,
      other.span.start ≠ shiftOffset (-edit.change.delta) place) :
    ∀ other ∈ lex text, (other.span.start : Int) + edit.change.delta ≠ place := by
  intro other member
  have delta := edit.newStop_eq_stop_add
  rw [lex, split.text, splice.old_stream, List.append_assoc] at member
  rcases List.mem_append.mp member with first | later
  · have before := splice.kept_tiles.of_mem first
    have ordered := split.start_le_stop
    omega
  · have apart := parted other later
    simp only [shiftOffset] at apart
    omega

theorem stop_ne (split : edit.Splits text front removed back) {place : Nat}
    (within : place < byteLength (edit.apply text).toList)
    (starts : ∀ other ∈ lex text, (other.span.start : Int) + edit.change.delta ≠ place) :
    ∀ other ∈ lex text, (other.span.stop : Int) + edit.change.delta ≠ place := by
  intro other member
  rcases (lex_tiles text).stop_cases member with last | ⟨next, member', begins⟩
  · have delta := split.delta_eq
    simp only [split.toList_apply, split.text, byteLength_append] at within last
    omega
  · exact begins ▸ starts next member'

theorem produced_ne (split : edit.Splits text front removed back)
    {splice : Splice front removed edit.insert.toList back} {region : Span}
    (early : byteLength splice.settled ≤ edit.start)
    (meets : splice.MeetsFrom (max edit.change.newStop (shiftOffset edit.change.delta
        (min (max region.stop edit.stop) (byteLength text.toList)))) edit.change.delta)
    {token : Token} (member : token ∈ splice.produced)
    (behind : edit.change.newStop ≤ token.span.start)
    (late : (min region.stop (byteLength text.toList) : Int) + edit.change.delta ≤ token.span.start) :
    ∀ other ∈ lex text, (other.span.start : Int) + edit.change.delta ≠ token.span.start ∧
      (other.span.stop : Int) + edit.change.delta ≠ token.span.start := by
  have delta := edit.newStop_eq_stop_add
  have parted := meets.parted token member (by simp only [shiftOffset]; omega)
  have starts := split.start_ne early behind parted
  have inside := (splice.produced_tiles.behind splice.kept_tiles).of_mem member
  have within : token.span.start < byteLength (edit.apply text).toList := by
    rw [split.toList_apply, ← splice.newStop_eq]
    omega
  exact fun other member => ⟨starts other member, split.stop_ne within starts other member⟩

end Edit.Splits

/-- Relexing after an edit that fits its text reports what it did, and does no more than it has to. -/
theorem relex_accurate {edit : Edit} {text : String} (fits : edit.fits text = true) (region : Span) :
    (relex (lex text) (edit.apply text) edit.change region).1.Accurate edit text region
      (relex (lex text) (edit.apply text) edit.change region).2 := by
  obtain ⟨front, removed, back, split⟩ := Edit.fits_iff.mp fits
  obtain ⟨splice, spliced, early, meets⟩ := split.relex_eq_meeting region
  have stream : lex text =
      splice.kept ++ (splice.replaced ++ lexFrom splice.oldStop splice.rest) := by
    rw [lex, split.text, splice.old_stream, List.append_assoc]
  have moved := splice.newStop_eq_shift split.delta_eq
  have delta := edit.newStop_eq_stop_add
  have ends := split.oldStop_le splice
  have oldTiles := splice.replaced_tiles.behind splice.kept_tiles
  have newTiles := splice.produced_tiles.behind splice.kept_tiles
  rw [spliced]
  refine
    { within := ⟨by simp [stream, Splice.relexed], by simp [Splice.tokens, Splice.relexed]⟩
      before := by simp [stream, Splice.tokens, Splice.relexed]
      behind := ?behind
      kept := by simpa [stream, Splice.relexed] using splice.kept_tiles
      old := by simpa [stream, Splice.relexed] using oldTiles
      new := by simpa [Splice.tokens, Splice.relexed] using newTiles
      start_eq := rfl
      start_le := ⟨Nat.le_trans early (Nat.min_le_right _ _), Nat.le_trans early (Nat.min_le_left _ _)⟩
      le_stop := ⟨split.oldStop_le splice, split.region_le_oldStop meets⟩
      le_newStop := ?newStop
      length := ?length
      minimal := ?minimal }
  case behind =>
    rw [stream]
    simp [Splice.tokens, Splice.relexed, ← List.append_assoc]
  case newStop =>
    change edit.change.newStop ≤ splice.newStop
    omega
  case length =>
    have ordered := splice.settled_le_newStop
    have ordered' := oldTiles.start_le_stop
    simp only [Splice.relexed, Span.length]
    omega
  case minimal =>
    intro token member behind late
    have produced : token ∈ splice.produced := by
      simpa [Splice.tokens, Splice.relexed] using member
    exact split.produced_ne (Nat.le_trans early (Nat.min_le_right _ _)) meets produced behind late

/-- A digit put behind the point makes one number of the five tokens around it. The region asks for the
point alone, and the two tokens in front of it are scanned again as well. -/
theorem relex_accurate_point :
    (⟨6, 6, "5"⟩ : Edit).fits "a = 1.e+3;" = true ∧
      (relex (lex "a = 1.e+3;") ((⟨6, 6, "5"⟩ : Edit).apply "a = 1.e+3;")
        (⟨6, 6, "5"⟩ : Edit).change ⟨5, 6⟩).1.Accurate ⟨6, 6, "5"⟩ "a = 1.e+3;" ⟨5, 6⟩
        (relex (lex "a = 1.e+3;") ((⟨6, 6, "5"⟩ : Edit).apply "a = 1.e+3;")
          (⟨6, 6, "5"⟩ : Edit).change ⟨5, 6⟩).2 := by
  have fits : (⟨6, 6, "5"⟩ : Edit).fits "a = 1.e+3;" = true := by decide +kernel
  exact ⟨fits, relex_accurate fits ⟨5, 6⟩⟩

end MuCompletion
