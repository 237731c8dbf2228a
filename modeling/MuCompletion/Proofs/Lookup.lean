import Mathlib.Data.List.Basic

/-! # Values under keys

A list of keys and values stands for a map: the first entry with a key counts.
-/

namespace MuCompletion

section

variable {Key Value : Type} [DecidableEq Key] {key : Key} {value : Value} {entries : List (Key × Value)}

theorem mem_of_lookup (found : entries.lookup key = some value) : (key, value) ∈ entries := by
  obtain ⟨before, after, rfl, -⟩ := List.lookup_eq_some_iff.mp found
  simp

theorem lookup_filter (entries : List (Key × Value)) (removed key : Key) :
    (entries.filter (·.1 != removed)).lookup key =
      if key = removed then none else entries.lookup key := by
  induction entries with
  | nil => simp
  | cons entry rest ih =>
      obtain ⟨first, value⟩ := entry
      by_cases same : first = removed
      · subst same
        by_cases here : key = first
        · simpa [here] using ih
        · simpa [here, List.lookup_cons, beq_eq_false_iff_ne.mpr here] using ih
      · by_cases here : key = first
        · simp [same, here]
        · simpa [same, List.lookup_cons, beq_eq_false_iff_ne.mpr here] using ih

end

end MuCompletion
