import Mathlib.Data.String.Basic
import MuCompletion.CommandLine.Command
import MuCompletion.Proofs.Completion.Lines

/-! # Completions on the command line

The program prints a record for each candidate, best first, with tabs between its parts and a newline
behind it. The parts are printed as they are, so the records are the lines of what is printed exactly if
no candidate goes over several lines.
-/

namespace MuCompletion

namespace CommandLine

open Text

/-- The parts of a candidate's record: its place, its label, its kind, and its documentation if it has
any. -/
def recordParts (place : Nat) (candidate : Candidate) : List String :=
  toString place :: candidate.label :: candidate.kind.name :: candidate.documentation.toList

/-- A record, with a tab between its parts. -/
def record (place : Nat) (candidate : Candidate) : List Char :=
  ['\t'].intercalate ((recordParts place candidate).map String.toList)

/-- The records of candidates, which are numbered from zero. -/
def records (candidates : List Candidate) : List (List Char) :=
  candidates.zipIdx.map fun (candidate, place) => record place candidate

/-- The output is the records of the candidates with a newline behind each. -/
def Prints (output : String) (candidates : List Candidate) : Prop :=
  output.toList = (records candidates).flatMap (· ++ ['\n'])

/-- Each line of the output is the record of one candidate, and nothing is behind the last. -/
def OneLineEach (output : String) (candidates : List Candidate) : Prop :=
  splitLines output.toList = records candidates ++ [[]]

instance (output : String) (candidates : List Candidate) :
    Decidable (OneLineEach output candidates) :=
  inferInstanceAs (Decidable (_ = _))

/-- The candidates at a place in a text, at most `limit` of them if there is a limit. -/
def candidatesAt (config : Config) (text : String) (place : Text.Cursor) (limit : Option Nat) :
    List Candidate :=
  (Workspace.ofConfig (limit.elim config config.withMaxCandidates)).candidates (.ofText text)
    (place.toOffset text.toList)

section

variable {candidate : Candidate} {candidates : List Candidate} {output : String}

theorem newline_not_mem_toDigits (n : Nat) : '\n' ∉ Nat.toDigits 10 n := by
  intro newline
  have digit := Nat.isDigit_of_mem_toDigits (by decide) (by decide) newline
  exact absurd digit (by decide)

theorem newline_not_mem_name (kind : SymbolKind) : '\n' ∉ kind.name.toList := by
  cases kind <;> exact newline_not_mem_ofList (by decide)

theorem newline_not_mem_record_iff (place : Nat) :
    '\n' ∉ record place candidate ↔ candidate.OnOneLine := by
  have plain := newline_not_mem_toDigits place
  have plain' := newline_not_mem_name candidate.kind
  cases documentation : candidate.documentation with
  | none =>
      simp [record, recordParts, documentation, Candidate.OnOneLine, plain, plain']
  | some doc =>
      simp [record, recordParts, documentation, Candidate.OnOneLine, plain, plain']

theorem toList_candidateLine (candidate : Candidate) :
    (candidateLine candidate).toList = record candidate.rank candidate ++ ['\n'] := by
  have itself (text : String) : toString text = text := rfl
  cases documentation : candidate.documentation with
  | none => simp [candidateLine, record, recordParts, documentation, itself]
  | some doc => simp [candidateLine, record, recordParts, documentation, itself]

theorem prints_join
    (ranked : ∀ (place : Nat) (candidate : Candidate), candidates[place]? = some candidate →
      candidate.rank = place) :
    Prints (String.join (candidates.map candidateLine)) candidates := by
  have numbered : records candidates =
      (candidates.zipIdx.map Prod.fst).map fun candidate => record candidate.rank candidate := by
    rw [records, List.map_map]
    refine List.map_congr_left fun (candidate, place) member => ?_
    rw [Function.comp_apply, ranked place candidate (List.mk_mem_zipIdx_iff_getElem?.mp member)]
  rw [Prints, numbered, List.zipIdx_map_fst, String.toList_join, List.flatMap_map, List.flatMap_map]
  exact List.flatMap_congr fun candidate _ => toList_candidateLine candidate

theorem Prints.oneLineEach_iff (prints : Prints output candidates) :
    OneLineEach output candidates ↔ ∀ candidate ∈ candidates, candidate.OnOneLine := by
  rw [OneLineEach, prints, splitLines_flatMap_eq_iff]
  constructor
  · intro plain candidate member
    obtain ⟨place, found⟩ := List.mem_iff_getElem?.mp member
    have listed : record place candidate ∈ records candidates :=
      List.mem_map.mpr ⟨(candidate, place), List.mk_mem_zipIdx_iff_getElem?.mpr found, rfl⟩
    exact (newline_not_mem_record_iff place).mp (plain _ listed)
  · intro plain line member
    obtain ⟨⟨candidate, place⟩, listed, rfl⟩ := List.mem_map.mp member
    exact (newline_not_mem_record_iff place).mpr (plain candidate (List.fst_mem_of_mem_zipIdx listed))

end

/-! ## Running the command -/

section

variable {read : String → FileState} {arguments : List String} {settings : Option String} {file : String}
  {place : Option Text.Cursor} {limit : Option Nat}

theorem CommandError.exitCode_ne_zero (error : CommandError) : error.exitCode ≠ 0 := by
  cases error <;> exact Nat.succ_ne_zero _

theorem exists_candidatesAt
    (asks : Invocation.ofArguments arguments = .ok ⟨settings, .complete file place limit⟩)
    (succeeds : (run read arguments).code = 0) :
    ∃ config text cursor, loadConfig read settings = .ok config ∧ loadSource read file = .ok text ∧
      place = some cursor ∧ (run read arguments).output =
        String.join ((candidatesAt config text cursor limit).map candidateLine) := by
  simp only [run, asks] at succeeds ⊢
  cases ran : Invocation.run read ⟨settings, .complete file place limit⟩ with
  | error error =>
      rw [ran] at succeeds
      exact absurd succeeds error.exitCode_ne_zero
  | ok output =>
      cases loaded : loadConfig read settings with
      | error error => simp [Invocation.run, loaded, bind, Except.bind] at ran
      | ok config =>
          cases place with
          | none => simp [Invocation.run, loaded, bind, Except.bind] at ran
          | some cursor =>
              cases source : loadSource read file with
              | error error => simp [Invocation.run, loaded, source, bind, Except.bind] at ran
              | ok text =>
                  refine ⟨config, text, cursor, rfl, rfl, rfl, ?_⟩
                  cases limit <;>
                    simpa [Invocation.run, loaded, source, bind, Except.bind, pure, Except.pure,
                      showCandidates, candidatesAt] using ran.symm

theorem onOneLine_candidatesAt_iff {config : Config} {text : String} {cursor : Text.Cursor}
    {candidate : Candidate} (shown : candidate ∈ candidatesAt config text cursor limit) :
    candidate.OnOneLine ↔
      ¬candidate.SpelledOverLines config ∧ ¬candidate.DocumentedOverLines text := by
  cases limit <;> exact onOneLine_iff shown

/-- A completion that succeeds prints the record of each candidate. Each record is a line exactly if
no candidate shown is an extra word spelled over several lines, or a name whose comments say several. -/
theorem complete_oneLineEach_iff
    (asks : Invocation.ofArguments arguments = .ok ⟨settings, .complete file place limit⟩)
    (succeeds : (run read arguments).code = 0) :
    ∃ config text cursor, loadConfig read settings = .ok config ∧ loadSource read file = .ok text ∧
      place = some cursor ∧
      Prints (run read arguments).output (candidatesAt config text cursor limit) ∧
      (OneLineEach (run read arguments).output (candidatesAt config text cursor limit) ↔
        ∀ candidate ∈ candidatesAt config text cursor limit,
          ¬candidate.SpelledOverLines config ∧ ¬candidate.DocumentedOverLines text) := by
  obtain ⟨config, text, cursor, loaded, source, placed, shows⟩ := exists_candidatesAt asks succeeds
  have prints : Prints (run read arguments).output (candidatesAt config text cursor limit) := by
    rw [shows]
    exact prints_join fun _ _ found => rank_complete _ _ _ _ found
  refine ⟨config, text, cursor, loaded, source, placed, prints, ?_⟩
  rw [prints.oneLineEach_iff]
  exact forall₂_congr fun candidate shown => onOneLine_candidatesAt_iff shown

end

/-- A comment of one line leaves the record of the name below it on one line. -/
theorem complete_oneLineEach_iff_comment :
    (run (fun _ => .bytes "// one\nlet alpha = 1;\nalp".toUTF8)
        ["complete", "a.mu", "--offset", "25"]).code = 0 ∧
      OneLineEach (run (fun _ => .bytes "// one\nlet alpha = 1;\nalp".toUTF8)
          ["complete", "a.mu", "--offset", "25"]).output
        (candidatesAt .default "// one\nlet alpha = 1;\nalp" (.offset 25) none) ∧
      ∀ candidate ∈ candidatesAt .default "// one\nlet alpha = 1;\nalp" (.offset 25) none,
        ¬candidate.SpelledOverLines .default ∧
          ¬candidate.DocumentedOverLines "// one\nlet alpha = 1;\nalp" := by
  have asks : Invocation.ofArguments ["complete", "a.mu", "--offset", "25"] =
      .ok ⟨none, .complete "a.mu" (some (.offset 25)) none⟩ := by rfl
  have shows : (run (fun _ => .bytes "// one\nlet alpha = 1;\nalp".toUTF8)
        ["complete", "a.mu", "--offset", "25"]).code = 0 ∧
      OneLineEach (run (fun _ => .bytes "// one\nlet alpha = 1;\nalp".toUTF8)
          ["complete", "a.mu", "--offset", "25"]).output
        (candidatesAt .default "// one\nlet alpha = 1;\nalp" (.offset 25) none) := by
    decide +kernel
  have read : loadSource (fun _ => .bytes "// one\nlet alpha = 1;\nalp".toUTF8) "a.mu" =
      .ok "// one\nlet alpha = 1;\nalp" := by decide +kernel
  obtain ⟨config, text, cursor, loaded, source, placed, -, same⟩ :=
    complete_oneLineEach_iff asks shows.1
  obtain rfl := Except.ok.inj loaded
  obtain rfl := Except.ok.inj (source.symm.trans read)
  obtain rfl := Option.some.inj placed
  exact ⟨shows.1, shows.2, same.mp shows.2⟩

/-- A comment of two lines puts the record of the name below it on two lines. -/
theorem not_oneLineEach_comments :
    (run (fun _ => .bytes "// one\n// two\nlet alpha = 1;\nalp".toUTF8)
        ["complete", "a.mu", "--offset", "32"]).code = 0 ∧
      ¬OneLineEach (run (fun _ => .bytes "// one\n// two\nlet alpha = 1;\nalp".toUTF8)
          ["complete", "a.mu", "--offset", "32"]).output
        (candidatesAt .default "// one\n// two\nlet alpha = 1;\nalp" (.offset 32) none) := by
  decide +kernel

end CommandLine

end MuCompletion
