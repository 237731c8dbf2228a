/-!
# Configuration

What a user can set: the number of candidates, whether edits are read incrementally, and words that
completions offer besides those of the language.
-/

namespace MuCompletion

/-- The settings of the completion engine. -/
@[ext] structure Config where
  /-- The most candidates that one completion offers. -/
  maxCandidates : Nat := 50
  /-- Whether an edit reads only the region around it again, rather than the whole text. -/
  incremental : Bool := true
  /-- Words offered after the keywords. -/
  extraKeywords : List String := []
  /-- Names offered after the builtin types. -/
  extraTypes : List String := []
  deriving DecidableEq, Repr

namespace Config

def default : Config := {}

def withMaxCandidates (config : Config) (count : Nat) : Config :=
  { config with maxCandidates := count }

def withIncremental (config : Config) (incremental : Bool) : Config :=
  { config with incremental := incremental }

def withExtraKeywords (config : Config) (words : List String) : Config :=
  { config with extraKeywords := config.extraKeywords ++ words }

def withExtraTypes (config : Config) (names : List String) : Config :=
  { config with extraTypes := config.extraTypes ++ names }

end Config

end MuCompletion
