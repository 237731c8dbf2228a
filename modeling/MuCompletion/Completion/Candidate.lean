import MuCompletion.Completion.Context
import MuCompletion.Completion.Vocabulary
import MuCompletion.Scope.Tree

/-!
# Candidates of a completion

The names that can be seen from the cursor, the keywords and the types are offered, each label once:
the first offer of a label hides the later ones. Kept is what begins with the typed text, whatever
the case of its letters. Offers that match in case too come first, then inner scopes before outer
ones, scopes before keywords, keywords before types, and last the order of labels.
-/

namespace MuCompletion

/-- One suggestion of a completion. -/
structure Candidate where
  label : String
  kind : SymbolKind
  /-- Its place in the list of candidates, from zero. -/
  rank : Nat
  documentation : Option String
  deriving DecidableEq, Repr

/-- Where an offer comes from. -/
inductive OfferSource where
  /-- A scope, so many scopes out from the cursor. -/
  | scope (distance : Nat)
  | keyword
  | «type»
  deriving DecidableEq, Repr

/-- Whether offers of one source come before those of another. -/
def OfferSource.precedes : OfferSource → OfferSource → Bool
  | scope distance, scope distance' => distance < distance'
  | scope _, _ => true
  | keyword, «type» => true
  | _, _ => false

/-- A label that may become a candidate. -/
structure Offer where
  label : String
  kind : SymbolKind
  documentation : Option String
  source : OfferSource
  deriving DecidableEq, Repr

namespace Offer

/-- Everything offered at a cursor: visible names but the word that is being typed, keywords, types. -/
def all (tree : ScopeTree) (vocabulary : Vocabulary) (context : CompletionContext) : List Offer :=
  let visible := (tree.visible context.cursor).filter fun seen => context.word != some seen.span
  visible.map (fun seen =>
      ⟨seen.symbol.name, seen.symbol.kind, seen.symbol.documentation, .scope seen.distance⟩) ++
    vocabulary.keywords.map (fun entry => ⟨entry.label, .keyword, entry.documentation, .keyword⟩) ++
    vocabulary.types.map (fun entry => ⟨entry.label, .«type», entry.documentation, .«type»⟩)

/-- The offers without those whose label was offered before. -/
def firstOfLabel : List Offer → List Offer
  | [] => []
  | offer :: rest => offer :: (firstOfLabel rest).filter (·.label != offer.label)

/-- Whether the offer begins with the typed text, letter case aside. -/
def fits (typed : String) (offer : Offer) : Bool :=
  (offer.label.toList.take typed.length).map Char.toLower == typed.toList.map Char.toLower

/-- Whether the offer begins with the typed text exactly. -/
def isExact (typed : String) (offer : Offer) : Bool :=
  offer.label.toList.take typed.length == typed.toList

/-- Whether the first offer may come before the second. -/
def ranksBefore (typed : String) (first second : Offer) : Bool :=
  if first.isExact typed != second.isExact typed then first.isExact typed
  else if first.source != second.source then first.source.precedes second.source
  else first.label ≤ second.label

end Offer

/-- The candidates at a cursor, best first and at most `limit`. -/
def complete (text : String) (tokens : List Token) (tree : ScopeTree) (cursor : Nat)
    (vocabulary : Vocabulary) (limit : Nat) : List Candidate :=
  match CompletionContext.at? text tokens cursor with
  | none => []
  | some context =>
    let offers := (Offer.firstOfLabel (Offer.all tree vocabulary context)).filter
      (Offer.fits context.typed)
    let ranked := (offers.mergeSort (Offer.ranksBefore context.typed)).take limit
    ranked.zipIdx.map fun (offer, rank) => ⟨offer.label, offer.kind, rank, offer.documentation⟩

end MuCompletion
