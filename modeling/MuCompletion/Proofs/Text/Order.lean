import Mathlib.Data.Prod.Lex
import Mathlib.Order.CompletePartialOrder
import Mathlib.Order.Interval.Set.Disjoint
import MuCompletion.Proofs.Text.Lines
import MuCompletion.Text.Position

/-! # The order of positions

Positions are ordered by line, and in one line by column. Their offsets keep this order in every text,
also where a line or a column lies past the end, behind a carriage return or inside a surrogate pair. A
range of positions therefore has the bytes between the offsets of its ends, and ranges that are apart
stay apart.
-/

namespace MuCompletion

namespace Text

/-- The line of a position, then its column. -/
def Position.key (position : Position) : ℕ ×ₗ ℕ :=
  toLex (position.line, position.character)

instance : LinearOrder Position :=
  LinearOrder.lift' Position.key fun first second same => by
    have pairs : (first.line, first.character) = (second.line, second.character) := same
    cases first
    cases second
    simpa using pairs

/-- The positions of a range, from its earlier end up to, and without, its later one. -/
def Position.range (first second : Position) : Set Position :=
  Set.Ico (min first second) (max first second)

/-- The offsets of the bytes in a span. -/
def bytesIn (span : Span) : Set Nat :=
  Set.Ico span.start span.stop

section

variable {cs : List Char} {position earlier later : Position} {line next : Line}

theorem Position.le_iff : earlier ≤ later ↔
    earlier.line < later.line ∨ earlier.line = later.line ∧ earlier.character ≤ later.character :=
  Prod.Lex.toLex_le_toLex

/-! ## Offsets of lines and of columns -/

theorem stop_lt_start {number number' : Nat} (found : (linesOf cs)[number]? = some line)
    (found' : (linesOf cs)[number']? = some next) (before : number < number') :
    line.stop < next.start := by
  obtain ⟨within, rfl⟩ := List.getElem?_eq_some_iff.mp found
  obtain ⟨within', rfl⟩ := List.getElem?_eq_some_iff.mp found'
  have ordered := pairwise_of_isChain (isChain_placeLines 0 (splitLines cs))
  exact List.pairwise_iff_getElem.mp ordered number number' within within' before

theorem stop_le_byteLength (member : line ∈ linesOf cs) : line.stop ≤ byteLength cs :=
  le_byteLength_of_isBoundary (mem_linesOf_iff.mp member).isBoundary.2

/-- What the columns of a position count, in its line. -/
def Position.columnsIn (position : Position) (line : Line) : List Char :=
  takeWithin units16 position.character (line.chars.takeWhile (· ≠ '\r'))

theorem Position.toOffset_of_line (found : (linesOf cs)[position.line]? = some line) :
    position.toOffset cs = line.start + byteLength (position.columnsIn line) := by
  simp only [toOffset, found, columnsIn]

theorem Position.toOffset_of_none (missing : (linesOf cs)[position.line]? = none) :
    position.toOffset cs = byteLength cs := by
  simp only [toOffset, missing]

theorem Position.columnsIn_prefix (position : Position) (line : Line) :
    position.columnsIn line <+: line.chars :=
  List.IsPrefix.trans ⟨_, takeWithin_append_dropWithin _ _ _⟩ (List.takeWhile_prefix _)

theorem Position.toOffset_le_stop (found : (linesOf cs)[position.line]? = some line) :
    position.toOffset cs ≤ line.stop := by
  have inside := byteLength_le_of_isPrefix (position.columnsIn_prefix line)
  rw [toOffset_of_line found]
  exact Nat.add_le_add_left inside line.start

theorem Position.toOffset_le_byteLength (cs : List Char) (position : Position) :
    position.toOffset cs ≤ byteLength cs := by
  cases found : (linesOf cs)[position.line]? with
  | none => exact Nat.le_of_eq (toOffset_of_none found)
  | some line =>
      have inside := stop_le_byteLength (List.mem_of_getElem? found)
      exact Nat.le_trans (toOffset_le_stop found) inside

/-! ## Order -/

theorem Position.monotone_toOffset (cs : List Char) : Monotone (Position.toOffset cs) := by
  intro earlier later before
  cases found' : (linesOf cs)[later.line]? with
  | none =>
      rw [toOffset_of_none found']
      exact toOffset_le_byteLength cs earlier
  | some next =>
      rcases le_iff.mp before with above | ⟨same, columns⟩
      · -- The earlier line is there too, and ends before the later one begins.
        have inside : earlier.line < (linesOf cs).length :=
          Nat.lt_trans above (List.getElem?_eq_some_iff.mp found').1
        have found := List.getElem?_eq_getElem inside
        have ends := toOffset_le_stop found
        have apart := stop_lt_start found found' above
        have begins := toOffset_of_line found'
        omega
      · have fewer : earlier.columnsIn next <+: later.columnsIn next :=
          takeWithin_prefix_of_le units16 columns _
        rw [toOffset_of_line (same ▸ found'), toOffset_of_line found']
        exact Nat.add_le_add_left (byteLength_le_of_isPrefix fewer) next.start

theorem spanBetween_eq (cs : List Char) (first second : Position) :
    spanBetween cs first second =
      ⟨(min first second).toOffset cs, (max first second).toOffset cs⟩ := by
  have monotone := Position.monotone_toOffset cs
  rw [spanBetween, monotone.map_min, monotone.map_max]

/-- A position that comes first has the lesser offset, or the same one. The ends of a range are put into
order only if the later one was given first, and ranges of positions that are apart have spans that are
apart: one ends before the other begins, or where it begins, and no byte is in both. -/
theorem toOffset_mono (cs : List Char) :
    (∀ earlier later : Position, earlier ≤ later → earlier.toOffset cs ≤ later.toOffset cs) ∧
      (∀ first second : Position,
        spanBetween cs first second ≠ ⟨first.toOffset cs, second.toOffset cs⟩ → second < first) ∧
      (∀ first second first' second' : Position, max first second ≤ min first' second' →
        (spanBetween cs first second).stop ≤ (spanBetween cs first' second').start) ∧
      ∀ first second first' second' : Position,
        Disjoint (Position.range first second) (Position.range first' second') →
          Disjoint (bytesIn (spanBetween cs first second)) (bytesIn (spanBetween cs first' second')) := by
  have monotone := Position.monotone_toOffset cs
  refine ⟨fun earlier later before => monotone before, fun first second swapped => ?_,
    fun first second first' second' before => ?_, fun first second first' second' apart => ?_⟩
  · by_contra ordered
    have ordered : first ≤ second := le_of_not_gt ordered
    rw [spanBetween_eq, min_eq_left ordered, max_eq_right ordered] at swapped
    exact swapped rfl
  · rw [spanBetween_eq, spanBetween_eq]
    exact monotone before
  · rw [spanBetween_eq, spanBetween_eq]
    apply Set.Ico_disjoint_Ico.mpr
    calc min ((max first second).toOffset cs) ((max first' second').toOffset cs)
        = (min (max first second) (max first' second')).toOffset cs := monotone.map_min.symm
      _ ≤ (max (min first second) (min first' second')).toOffset cs :=
          monotone (Set.Ico_disjoint_Ico.mp apart)
      _ = max ((min first second).toOffset cs) ((min first' second').toOffset cs) := monotone.map_max

/-- The first range is given from its end. Columns go past the ends of two lines, of which the first
has a carriage return, and into a surrogate pair. -/
theorem toOffset_mono_clamped :
    (⟨0, 9⟩ : Position) ≤ ⟨1, 1⟩ ∧
      (⟨0, 9⟩ : Position).toOffset ['a', '\r', '\n', '𝄞', 'x'] ≤
        (⟨1, 1⟩ : Position).toOffset ['a', '\r', '\n', '𝄞', 'x'] ∧
      (spanBetween ['a', '\r', '\n', '𝄞', 'x'] ⟨1, 1⟩ ⟨0, 9⟩ ≠
          ⟨(⟨1, 1⟩ : Position).toOffset ['a', '\r', '\n', '𝄞', 'x'],
            (⟨0, 9⟩ : Position).toOffset ['a', '\r', '\n', '𝄞', 'x']⟩ ∧
        (⟨0, 9⟩ : Position) < ⟨1, 1⟩) ∧
      (max (⟨1, 1⟩ : Position) ⟨0, 9⟩ ≤ min ⟨1, 2⟩ ⟨3, 0⟩ ∧
        (spanBetween ['a', '\r', '\n', '𝄞', 'x'] ⟨1, 1⟩ ⟨0, 9⟩).stop ≤
          (spanBetween ['a', '\r', '\n', '𝄞', 'x'] ⟨1, 2⟩ ⟨3, 0⟩).start) ∧
      Disjoint (Position.range ⟨1, 1⟩ ⟨0, 9⟩) (Position.range ⟨1, 2⟩ ⟨3, 0⟩) ∧
      Disjoint (bytesIn (spanBetween ['a', '\r', '\n', '𝄞', 'x'] ⟨1, 1⟩ ⟨0, 9⟩))
        (bytesIn (spanBetween ['a', '\r', '\n', '𝄞', 'x'] ⟨1, 2⟩ ⟨3, 0⟩)) := by
  obtain ⟨ordered, swapped, before, apart⟩ := toOffset_mono ['a', '\r', '\n', '𝄞', 'x']
  have positions : Disjoint (Position.range ⟨1, 1⟩ ⟨0, 9⟩) (Position.range ⟨1, 2⟩ ⟨3, 0⟩) :=
    Set.Ico_disjoint_Ico.mpr (by decide)
  have reversed : spanBetween ['a', '\r', '\n', '𝄞', 'x'] ⟨1, 1⟩ ⟨0, 9⟩ ≠
      ⟨(⟨1, 1⟩ : Position).toOffset ['a', '\r', '\n', '𝄞', 'x'],
        (⟨0, 9⟩ : Position).toOffset ['a', '\r', '\n', '𝄞', 'x']⟩ := by decide
  exact ⟨by decide, ordered _ _ (by decide), ⟨reversed, swapped _ _ reversed⟩,
    ⟨by decide, before _ _ _ _ (by decide)⟩, positions, apart _ _ _ _ positions⟩

end

end Text

end MuCompletion
