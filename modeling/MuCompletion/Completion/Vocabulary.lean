import MuCompletion.Config.Basic
import MuCompletion.Language.BuiltinType
import MuCompletion.Language.Keyword

/-!
# The vocabulary of completions

The words that every completion may offer: the keywords and the builtin types with their
descriptions, and the configured extras after them. No word stands in a table twice.
-/

namespace MuCompletion

/-- A word of a table. -/
structure VocabularyEntry where
  label : String
  /-- What documents the word; extras have no documentation. -/
  documentation : Option String
  deriving DecidableEq, Repr

/-- The words that every completion may offer. -/
structure Vocabulary where
  /-- The keywords and the extra words. -/
  keywords : List VocabularyEntry
  /-- The builtin types and the extra names. -/
  types : List VocabularyEntry
  deriving DecidableEq, Repr

namespace Vocabulary

/-- The words of the language. -/
def builtin : Vocabulary where
  keywords := Keyword.all.map fun keyword => ⟨keyword.spelling, some keyword.description⟩
  types := BuiltinType.all.map fun type => ⟨type.spelling, some type.description⟩

/-- Append a word, unless it is empty or stands in the table. -/
def add (table : List VocabularyEntry) (word : String) : List VocabularyEntry :=
  if word.isEmpty || table.any (·.label == word) then table else table ++ [⟨word, none⟩]

/-- The words of the language and the configured extras. -/
def ofConfig (config : Config) : Vocabulary where
  keywords := config.extraKeywords.foldl add builtin.keywords
  types := config.extraTypes.foldl add builtin.types

end Vocabulary

end MuCompletion
