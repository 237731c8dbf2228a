import MuCompletion.Completion.Candidate

/-!
# Completion items

A candidate as an editor receives it. The editor sorts items by a text, so the rank is written with
leading zeros.
-/

namespace MuCompletion

structure CompletionItem where
  label : String
  /-- The number of the icon that the editor shows. -/
  kind : Nat
  /-- What the label stands for, in words. -/
  detail : String
  documentation : Option String
  /-- The text that the editor sorts by. -/
  sortText : String
  deriving DecidableEq, Repr

/-- The number that editors know for what a name stands for. -/
def SymbolKind.itemKind : SymbolKind → Nat
  | keyword => 14
  | «type» => 7
  | «variable» => 6
  | function => 3
  | «namespace» => 9

/-- A rank in decimal digits, at least four of them. -/
def rankText (rank : Nat) : String :=
  let digits := Nat.toDigits 10 rank
  String.ofList (List.replicate (4 - digits.length) '0' ++ digits)

/-- A candidate as an editor receives it. -/
def Candidate.toItem (candidate : Candidate) : CompletionItem where
  label := candidate.label
  kind := candidate.kind.itemKind
  detail := candidate.kind.name
  documentation := candidate.documentation
  sortText := rankText candidate.rank

structure CompletionList where
  /-- Whether the limit was reached, so that the editor asks again as the word grows. -/
  isIncomplete : Bool
  /-- The items, best first. -/
  items : List CompletionItem
  deriving DecidableEq, Repr

/-- The answer made of candidates that were computed under a limit. -/
def CompletionList.ofCandidates (candidates : List Candidate) (limit : Nat) : CompletionList where
  isIncomplete := 0 < limit && candidates.length == limit
  items := candidates.map Candidate.toItem

end MuCompletion
