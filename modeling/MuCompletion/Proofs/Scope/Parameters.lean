import MuCompletion.Proofs.Scope.Frames
import MuCompletion.Proofs.Scope.Layout

/-! # Parameters

The parameters of a declaration are found in the groups of parentheses between its keyword and the brace
that opens its scope, each group split at commas and semicolons. They are the first names of that scope,
and all other names of the scope come behind the brace.
-/

namespace MuCompletion

open ScopeBuilder

/-! ## Groups of parentheses -/

namespace Token

/-- The depth of a token in parentheses when `depth` are open before it. A parenthesis belongs to what is
around it. -/
def depthWithin (depth : Nat) (token : Token) : Nat :=
  if token.mark? = some ")" then depth - 1 else depth

/-- How many parentheses are open behind a token. -/
def depthBehind (depth : Nat) (token : Token) : Nat :=
  if token.mark? = some "(" then depth + 1 else token.depthWithin depth

/-- Whether the token parts segments of a parameter list. -/
def endsSegment (token : Token) : Bool :=
  token.mark? = some "," || token.mark? = some ";"

/-- Whether the token is a name or a type. -/
def isNameOrType (token : Token) : Bool :=
  match token.kind with
  | .identifier | .builtin _ => true
  | _ => false

end Token

/-- Tokens with their depth in parentheses. -/
def withDepth (depth : Nat) : List Token → List (Nat × Token)
  | [] => []
  | token :: rest => (token.depthWithin depth, token) :: withDepth (token.depthBehind depth) rest

/-- The names and types of a segment that stand before its default value. -/
def segmentWords (segment : List Token) : List Token :=
  (segment.takeWhile (·.mark? ≠ some "=")).filter Token.isNameOrType

/-- The parameter of a segment: its last word, if that is a name and not the only one. -/
def segmentParameter? (segment : List Token) : Option Token :=
  if 2 ≤ (segmentWords segment).length then
    (segmentWords segment).getLast?.filter (·.kind = .identifier)
  else none

/-- The tokens of a group of parentheses that stand in no other group inside it. -/
def groupTokens (group : List (Nat × Token)) : List Token :=
  (group.filter (·.1 = 1)).map (·.2)

/-- The parameters of one group of parentheses. -/
def groupParameters (group : List (Nat × Token)) : List Token :=
  ((groupTokens group).splitOnP Token.endsSegment).filterMap segmentParameter?

/-- The parameters of all groups of parentheses. -/
def parametersAmong (tokens : List (Nat × Token)) : List Token :=
  (tokens.splitOnP (·.1 = 0)).flatMap groupParameters

/-- The parameters in the head of a declaration. -/
def headParameters (between : List Token) : List Token :=
  parametersAmong (withDepth 0 between)

/-! ## Segments -/

/-- A parameter list of which the current segment has been read. -/
def ParameterList.ofSegment (depth : Nat) (segment : List Token) : ParameterList :=
  ⟨depth, (segmentWords segment).length, (segmentWords segment).getLast?.filter (·.kind = .identifier),
    segment.any (·.mark? = some "=")⟩

/-- The segment with one more token, if that stands in the list itself. -/
def grown (depth : Nat) (token : Token) (segment : List Token) : List Token :=
  if depth = 1 then segment ++ [token] else segment

section

variable {segment : List Token} {token : Token} {tokens : List (Nat × Token)}

theorem segmentWords_cons (first : Token) (segment : List Token) :
    segmentWords (first :: segment) =
      if first.mark? = some "=" then [] else [first].filter Token.isNameOrType ++ segmentWords segment := by
  by_cases defaults : first.mark? = some "="
  · simp [segmentWords, defaults]
  · simp [segmentWords, defaults, List.filter_cons]
    split <;> rfl

theorem segmentWords_concat : segmentWords (segment ++ [token]) =
    segmentWords segment ++
      if segment.any (·.mark? = some "=") then [] else [token].filter Token.isNameOrType := by
  induction segment with
  | nil =>
      rw [List.nil_append, segmentWords_cons]
      split
      · next defaults =>
          have other : token.isNameOrType = false := by
            simp [Token.isNameOrType, (step_of_mark defaults).1]
          simp [segmentWords, other]
      · simp [segmentWords]
  | cons first segment ih =>
      rw [List.cons_append, segmentWords_cons, segmentWords_cons]
      by_cases defaults : first.mark? = some "="
      · simp [defaults]
      · simp only [defaults, if_false, ih, List.any_cons, decide_false, Bool.false_or,
          List.append_assoc]

/-- Where the parentheses close is no matter to what stands in them before. -/
theorem exists_group (tokens : List (Nat × Token)) : ∃ group later, ∀ front,
    (∀ token ∈ front, token.1 ≠ 0) →
      parametersAmong (front ++ tokens) = groupParameters (front ++ group) ++ later := by
  obtain ⟨group, groups, split⟩ := List.exists_cons_of_ne_nil
    (List.splitOnP_ne_nil (fun token : Nat × Token => token.1 = 0) tokens)
  refine ⟨group, groups.flatMap groupParameters, fun front inside => ?_⟩
  -- No token in front closes a group, so all of them go into the first one.
  have whole : (front ++ tokens).splitOnP (fun token => token.1 = 0) = (front ++ group) :: groups := by
    induction front with
    | nil => exact split
    | cons first front ih =>
        obtain ⟨here, later⟩ := List.forall_mem_cons.mp inside
        simp [List.splitOnP_cons_eq_if_modifyHead, here, ih later]
  rw [parametersAmong, whole, List.flatMap_cons]

theorem groupTokens_append (front back : List (Nat × Token)) :
    groupTokens (front ++ back) = groupTokens front ++ groupTokens back := by
  simp [groupTokens]

theorem groupTokens_segment (segment : List Token) : groupTokens (segment.map (1, ·)) = segment := by
  simp [groupTokens, List.filter_map, Function.comp_def]

theorem groupParameters_segment (whole : ∀ token ∈ segment, token.endsSegment = false) :
    groupParameters (segment.map (1, ·)) = (segmentParameter? segment).toList := by
  rw [groupParameters, groupTokens_segment, List.splitOnP_eq_singleton whole, List.filterMap_cons]
  cases segmentParameter? segment <;> rfl

theorem groupParameters_separated (whole : ∀ token ∈ segment, token.endsSegment = false)
    (ends : token.endsSegment = true) (group : List (Nat × Token)) :
    groupParameters (segment.map (1, ·) ++ (1, token) :: group) =
      (segmentParameter? segment).toList ++ groupParameters group := by
  have here : groupTokens ((1, token) :: group) = token :: groupTokens group := by simp [groupTokens]
  rw [groupParameters, groupTokens_append, groupTokens_segment, here,
    List.splitOnP_append_cons_of_forall_mem whole _ ends, List.filterMap_cons, groupParameters]
  cases segmentParameter? segment <;> rfl

theorem parametersAmong_around (whole : ∀ token ∈ segment, token.endsSegment = false) :
    parametersAmong (segment.map (1, ·) ++ (0, token) :: tokens) =
      (segmentParameter? segment).toList ++ parametersAmong tokens := by
  have inside : (segment.map (1, ·)).splitOnP (fun token => token.1 = 0) = [segment.map (1, ·)] :=
    List.splitOnP_eq_singleton (by simp)
  rw [parametersAmong, List.splitOnP_append_cons _ _ (by simp), inside, List.singleton_append,
    List.flatMap_cons, groupParameters_segment whole, parametersAmong]

theorem parametersAmong_segment (whole : ∀ token ∈ segment, token.endsSegment = false) :
    parametersAmong (segment.map (1, ·)) = (segmentParameter? segment).toList := by
  have inside : (segment.map (1, ·)).splitOnP (fun token => token.1 = 0) = [segment.map (1, ·)] :=
    List.splitOnP_eq_singleton (by simp)
  rw [parametersAmong, inside, List.flatMap_singleton, groupParameters_segment whole]

theorem parametersAmong_separated (whole : ∀ token ∈ segment, token.endsSegment = false)
    (ends : token.endsSegment = true) :
    parametersAmong (segment.map (1, ·) ++ (1, token) :: tokens) =
      (segmentParameter? segment).toList ++ parametersAmong tokens := by
  obtain ⟨group, later, same⟩ := exists_group tokens
  have behind := same [] (by simp)
  have all := same (segment.map (1, ·) ++ [(1, token)]) (by simp +contextual [or_imp])
  rw [← List.append_cons, ← List.append_cons, groupParameters_separated whole ends] at all
  rw [List.nil_append, List.nil_append] at behind
  rw [all, behind, List.append_assoc]

theorem parametersAmong_grown {depth : Nat} (inside : 0 < depth) :
    parametersAmong (segment.map (1, ·) ++ (depth, token) :: tokens) =
      parametersAmong ((grown depth token segment).map (1, ·) ++ tokens) := by
  obtain ⟨group, later, same⟩ := exists_group tokens
  have all := same (segment.map (1, ·) ++ [(depth, token)])
    (by simp +contextual [or_imp, Nat.pos_iff_ne_zero.mp inside])
  rw [← List.append_cons, ← List.append_cons] at all
  rw [all, same _ (by simp)]
  by_cases here : depth = 1 <;> simp [groupParameters, groupTokens, grown, here]

end

/-! ## Reading a head -/

namespace PendingDeclaration

variable {declaration next : PendingDeclaration} {segment : List Token} {token : Token} {depth : Nat}

/-- So many parentheses are open in the head of the declaration, and the current segment of the list that
is being read has these tokens. -/
def Stands (declaration : PendingDeclaration) (depth : Nat) (segment : List Token) : Prop :=
  match declaration.stage with
  | .parameters list => 0 < depth ∧ list = .ofSegment depth segment ∧
      ∀ token ∈ segment, token.endsSegment = false
  | _ => depth = 0 ∧ segment = []

/-- Only names, types and the first `=` are counted. -/
theorem ofSegment_grown_of_other (other : token.isNameOrType = false) (within : Nat)
    (marked : within = 1 → token.mark? ≠ some "=") :
    ParameterList.ofSegment depth (grown within token segment) = .ofSegment depth segment := by
  unfold grown
  split
  · next here => simp [ParameterList.ofSegment, segmentWords_concat, other, marked here]
  · rfl

theorem ofSegment_grown_of_word (word : token.isNameOrType = true) :
    ParameterList.ofSegment 1 (grown 1 token segment) =
      if segment.any (·.mark? = some "=") then .ofSegment 1 segment
      else ⟨1, (segmentWords segment).length + 1, some token |>.filter (·.kind = .identifier), false⟩ := by
  have unmarked : token.mark? = none := by
    cases kind : token.kind <;> simp [Token.isNameOrType, kind, Token.mark?] at word ⊢
  simp only [grown, if_true, ParameterList.ofSegment, segmentWords_concat, List.any_append]
  split
  · next defaulted => simp [defaulted]
  · next plain => simp [plain, word, unmarked]

theorem ofSegment_grown_of_default (defaults : token.mark? = some "=") :
    ParameterList.ofSegment 1 (grown 1 token segment) =
      { ParameterList.ofSegment 1 segment with defaulted := true } := by
  have other : token.isNameOrType = false := by simp [Token.isNameOrType, (step_of_mark defaults).1]
  simp [ParameterList.ofSegment, grown, segmentWords_concat, other, defaults]

/-- The declaration after a token that goes into the segment. -/
def growing (declaration : PendingDeclaration) (depth : Nat) (segment : List Token) (token : Token) :
    PendingDeclaration :=
  { declaration with stage := .parameters (.ofSegment (token.depthBehind depth)
      (grown (token.depthWithin depth) token segment)) }

theorem readParameters_mark (stage : declaration.stage = .parameters (.ofSegment depth segment))
    (kind : token.kind = .punctuation) (inside : 0 < token.depthWithin depth)
    (joins : token.depthWithin depth = 1 → token.endsSegment = false) :
    readParameters declaration (.ofSegment depth segment) token =
      declaration.growing depth segment token := by
  have same : declaration = { declaration with stage := .parameters (.ofSegment depth segment) } := by
    rw [← stage]
  have other : token.isNameOrType = false := by simp [Token.isNameOrType, kind]
  have mark : token.mark? = some token.text := by simp [Token.mark?, kind]
  simp only [Token.depthWithin, Token.endsSegment, mark, Option.some.injEq] at inside joins
  simp only [readParameters, growing, kind, Token.depthBehind, Token.depthWithin, mark,
    Option.some.injEq]
  by_cases opens : token.text = "("
  · rw [ofSegment_grown_of_other other _ (by simp [mark, opens])]
    simp only [opens, if_true]
    rfl
  · by_cases closes : token.text = ")"
    · have deep : 1 < depth := by
        simp only [closes, if_true] at inside
        omega
      rw [ofSegment_grown_of_other other _ (by simp [mark, closes])]
      simp only [closes, String.reduceEq, if_false, if_true]
      rw [if_pos (show 1 < (ParameterList.ofSegment depth segment).depth from deep)]
      rfl
    · simp only [opens, closes, if_false] at joins ⊢
      by_cases here : depth = 1
      · subst here
        have whole := joins rfl
        have listed : (ParameterList.ofSegment 1 segment).depth = 1 := rfl
        simp only [listed, whole, decide_true, Bool.true_and, Bool.false_eq_true, if_false]
        by_cases defaults : token.text = "="
        · rw [ofSegment_grown_of_default (by rw [mark, defaults])]
          simp only [defaults, decide_true, if_true]
          rfl
        · rw [ofSegment_grown_of_other other _ fun _ => by simpa [mark] using defaults]
          simp only [defaults, decide_false, Bool.false_eq_true, if_false]
          exact same
      · rw [ofSegment_grown_of_other other _ fun inside => absurd inside here]
        have deeper : (ParameterList.ofSegment depth segment).depth ≠ 1 := here
        simp only [deeper, decide_false, Bool.false_and, Bool.false_eq_true, if_false]
        exact same

theorem readParameters_word (stage : declaration.stage = .parameters (.ofSegment depth segment))
    (word : token.isNameOrType = true) :
    readParameters declaration (.ofSegment depth segment) token =
      declaration.growing depth segment token := by
  have same : declaration = { declaration with stage := .parameters (.ofSegment depth segment) } := by
    rw [← stage]
  cases kind : token.kind with
  | identifier | builtin =>
      have mark : token.mark? = none := by simp [Token.mark?, kind]
      simp only [readParameters, growing, kind, Token.depthBehind, Token.depthWithin, mark, reduceCtorEq,
        if_false]
      by_cases here : depth = 1
      · subst here
        rw [ofSegment_grown_of_word word]
        cases defaulted : segment.any (·.mark? = some "=") with
        | false => simp [ParameterList.ofSegment, defaulted, Option.filter, kind]
        | true =>
            simp only [ParameterList.ofSegment, defaulted, decide_true, Bool.not_true, Bool.and_false,
              Bool.false_eq_true, if_false, if_true]
            simpa only [ParameterList.ofSegment, defaulted] using same
      · have outside : grown depth token segment = segment := if_neg here
        have deeper : (ParameterList.ofSegment depth segment).depth ≠ 1 := here
        simp only [deeper, outside, decide_false, Bool.false_and, Bool.false_eq_true, if_false]
        exact same
  | keyword | number | string | comment | whitespace | punctuation =>
      simp [Token.isNameOrType, kind] at word

theorem readParameters_grown (stage : declaration.stage = .parameters (.ofSegment depth segment))
    (inside : 0 < token.depthWithin depth)
    (joins : token.depthWithin depth = 1 → token.endsSegment = false) :
    readParameters declaration (.ofSegment depth segment) token =
      declaration.growing depth segment token := by
  cases kind : token.kind with
  | punctuation => exact readParameters_mark stage kind inside joins
  | identifier | builtin => exact readParameters_word stage (by simp [Token.isNameOrType, kind])
  | keyword | number | string | comment | whitespace =>
      have other : token.isNameOrType = false := by simp [Token.isNameOrType, kind]
      have mark : token.mark? = none := by simp [Token.mark?, kind]
      simp [readParameters, growing, kind, ofSegment_grown_of_other other, mark, Token.depthBehind,
        Token.depthWithin, ← stage]

theorem endSegment_ofSegment (stage : declaration.stage = .parameters (.ofSegment depth segment)) :
    declaration.endSegment = { declaration with
      parameters := (segmentParameter? segment).toList ++ declaration.parameters
      stage := .parameters (.ofSegment depth []) } := by
  simp only [endSegment, stage]
  rfl

theorem readParameters_separated (ends : token.endsSegment = true) :
    readParameters declaration (.ofSegment 1 segment) token = declaration.endSegment := by
  have marked : token.mark? = some "," ∨ token.mark? = some ";" := by
    simpa [Token.endsSegment] using ends
  rcases marked with marked | marked
  · simp [readParameters, step_of_mark marked, ParameterList.ofSegment]
  · simp [readParameters, step_of_mark marked, ParameterList.ofSegment]

theorem readParameters_closing (closes : token.mark? = some ")") :
    readParameters declaration (.ofSegment 1 segment) token =
      { declaration.endSegment with stage := .header } := by
  simp [readParameters, step_of_mark closes, ParameterList.ofSegment]

theorem stands_opened : ({ declaration with stage := .parameters .opened } :
    PendingDeclaration).Stands 1 [] :=
  ⟨Nat.one_pos, rfl, by simp⟩

/-- Outside of parameter lists only a parenthesis matters: it opens one. -/
theorem next?_outside (outside : ∀ list, declaration.stage ≠ .parameters list)
    (goesOn : declaration.next? token = some next) :
    token.mark? = some "(" ∧ next = { declaration with stage := .parameters .opened } ∨
      token.mark? ≠ some "(" ∧ next.parameters = declaration.parameters ∧
        ∀ list, next.stage ≠ .parameters list := by
  by_cases blank : token.kind = .whitespace ∨ token.kind = .comment
  · have mark : token.mark? = none := by rcases blank with blank | blank <;> simp [Token.mark?, blank]
    simp only [next?, blank, if_true, Option.some.injEq] at goesOn
    simp [← goesOn, outside, mark]
  · simp only [next?, blank, if_false] at goesOn
    cases stage : declaration.stage with
    | name | header =>
        cases kind : token.kind <;> simp only [stage, kind, reduceCtorEq] at goesOn <;>
          grind [Token.mark?]
    | parameters list => exact absurd stage (outside list)

theorem stands_of_outside (outside : ∀ list, declaration.stage ≠ .parameters list) :
    declaration.Stands 0 [] := by
  cases stage : declaration.stage with
  | name | header => simp [Stands, stage]
  | parameters list => exact absurd stage (outside list)

theorem next?_inside {list : ParameterList} (stage : declaration.stage = .parameters list) :
    declaration.next? token = some (readParameters declaration list token) := by
  by_cases blank : token.kind = .whitespace ∨ token.kind = .comment
  · rcases blank with blank | blank <;> simp [next?, blank, readParameters]
  · simp only [next?, blank, if_false, stage]

theorem stands_iff {list : ParameterList} (stage : declaration.stage = .parameters list) :
    declaration.Stands depth segment ↔ 0 < depth ∧ list = .ofSegment depth segment ∧
      ∀ token ∈ segment, token.endsSegment = false := by
  simp only [Stands, stage]

/-- The parameters of the declaration, with those that are still to come if the tokens `rest` follow. -/
def gathers (declaration : PendingDeclaration) (depth : Nat) (segment rest : List Token) : List Token :=
  declaration.parameters.reverse ++ parametersAmong (segment.map (1, ·) ++ withDepth depth rest)

/-- Behind the token `next` is known of the declaration, and what is gathered stays the same. -/
def Passes (declaration next : PendingDeclaration) (depth : Nat) (segment : List Token) (token : Token) :
    Prop :=
  ∃ segment', next.Stands (token.depthBehind depth) segment' ∧ ∀ rest,
    declaration.gathers depth segment (token :: rest) =
      next.gathers (token.depthBehind depth) segment' rest

theorem passes_outside (outside : ∀ list, declaration.stage ≠ .parameters list)
    (goesOn : declaration.next? token = some next) : declaration.Passes next 0 [] token := by
  have around : token.depthWithin 0 = 0 := by simp [Token.depthWithin]
  have skips : ∀ rest, parametersAmong ([].map (1, ·) ++ withDepth 0 (token :: rest)) =
      parametersAmong ([].map (1, ·) ++ withDepth (token.depthBehind 0) rest) := by
    intro rest
    rw [withDepth, around, parametersAmong_around (by simp)]
    rfl
  rcases next?_outside outside goesOn with ⟨opens, rfl⟩ | ⟨other, same, outside⟩
  · refine ⟨[], ?_, fun rest => congrArg (declaration.parameters.reverse ++ ·) (skips rest)⟩
    have behind : token.depthBehind 0 = 1 := by simp [Token.depthBehind, opens]
    rw [behind]
    exact stands_opened
  · refine ⟨[], ?_, fun rest => by rw [gathers, gathers, skips, same]⟩
    have behind : token.depthBehind 0 = 0 := by simp [Token.depthBehind, other, around]
    rw [behind]
    exact stands_of_outside outside

section

variable (stage : declaration.stage = .parameters (.ofSegment depth segment))
  (whole : ∀ token ∈ segment, token.endsSegment = false)

include stage whole

theorem passes_closing (inside : 0 < depth) (closes : token.depthWithin depth = 0) :
    declaration.Passes (readParameters declaration (.ofSegment depth segment) token) depth segment
      token := by
  have closing : token.mark? = some ")" ∧ depth = 1 := by
    simp only [Token.depthWithin] at closes
    split at closes
    · next marked => exact ⟨marked, by omega⟩
    · omega
  obtain ⟨marked, rfl⟩ := closing
  have behind : token.depthBehind 1 = 0 := by simp [Token.depthBehind, Token.depthWithin, marked]
  rw [Passes, readParameters_closing marked, endSegment_ofSegment stage, behind]
  refine ⟨[], ⟨rfl, rfl⟩, fun rest => ?_⟩
  rw [gathers, gathers, withDepth, closes, behind, parametersAmong_around whole]
  cases segmentParameter? segment <;> simp

theorem passes_separated (inside : 0 < depth) (here : token.depthWithin depth = 1)
    (ends : token.endsSegment = true) :
    declaration.Passes (readParameters declaration (.ofSegment depth segment) token) depth segment
      token := by
  have marked : token.mark? ≠ some "(" ∧ token.mark? ≠ some ")" := by
    have marks : token.mark? = some "," ∨ token.mark? = some ";" := by
      simpa [Token.endsSegment] using ends
    rcases marks with marks | marks <;> simp [marks]
  have within : token.depthWithin depth = depth := if_neg marked.2
  obtain rfl : depth = 1 := within.symm.trans here
  have behind : token.depthBehind 1 = 1 := by rw [Token.depthBehind, if_neg marked.1, here]
  rw [Passes, readParameters_separated ends, endSegment_ofSegment stage, behind]
  refine ⟨[], ⟨inside, rfl, by simp⟩, fun rest => ?_⟩
  rw [gathers, gathers, withDepth, here, behind, parametersAmong_separated whole ends]
  cases segmentParameter? segment <;> simp

theorem passes_grown (open_ : 0 < token.depthWithin depth)
    (joins : token.depthWithin depth = 1 → token.endsSegment = false) :
    declaration.Passes (readParameters declaration (.ofSegment depth segment) token) depth segment
      token := by
  rw [readParameters_grown stage open_ joins]
  refine ⟨grown (token.depthWithin depth) token segment, ⟨?_, rfl, ?_⟩, fun rest => ?_⟩
  · unfold Token.depthBehind
    split
    · exact Nat.succ_pos depth
    · exact open_
  · intro other member
    unfold grown at member
    split at member
    · next here =>
        rcases List.mem_append.mp member with listed | same
        · exact whole other listed
        · rw [List.mem_singleton.mp same]
          exact joins here
    · exact whole other member
  · rw [gathers, gathers, withDepth, parametersAmong_grown open_]
    rfl

end

theorem passes_next? (stands : declaration.Stands depth segment)
    (goesOn : declaration.next? token = some next) : declaration.Passes next depth segment token := by
  cases stage : declaration.stage with
  | name | header =>
      obtain ⟨rfl, rfl⟩ : depth = 0 ∧ segment = [] := by simpa only [Stands, stage] using stands
      exact passes_outside (by simp [stage]) goesOn
  | parameters list =>
      obtain ⟨inside, rfl, whole⟩ := (stands_iff stage).mp stands
      rw [next?_inside stage, Option.some.injEq] at goesOn
      rw [← goesOn]
      by_cases closes : token.depthWithin depth = 0
      · exact passes_closing stage whole inside closes
      · by_cases ends : token.depthWithin depth = 1 ∧ token.endsSegment = true
        · exact passes_separated stage whole inside ends.1 ends.2
        · exact passes_grown stage whole (Nat.pos_of_ne_zero closes) (by simpa using ends)

theorem gathers_endSegment (stands : declaration.Stands depth segment) :
    declaration.gathers depth segment [] = declaration.endSegment.parameters.reverse := by
  cases stage : declaration.stage with
  | name | header =>
      obtain ⟨rfl, rfl⟩ : depth = 0 ∧ segment = [] := by simpa only [Stands, stage] using stands
      simp [gathers, withDepth, parametersAmong, groupParameters, groupTokens, segmentParameter?,
        segmentWords, endSegment, stage]
  | parameters list =>
      obtain ⟨inside, rfl, whole⟩ := (stands_iff stage).mp stands
      rw [gathers, withDepth, List.append_nil, parametersAmong_segment whole, endSegment_ofSegment stage]
      cases segmentParameter? segment <;> simp

end PendingDeclaration

/-! ## Heads of scopes -/

/-- The tokens `between` stand between the keyword that heads a scope and the brace that opens it. -/
structure OpensScope (tokens : List Token) (kind : ScopeKind) (start : Nat) (keyword : Token)
    (between : List Token) (opening : Token) : Prop where
  listed : ∃ before after, tokens = before ++ keyword :: between ++ opening :: after
  heads : keyword.Heads kind
  start : keyword.span.start = start
  plain : ∀ token ∈ between, token.mark? ≠ some "\x7b" ∧ token.mark? ≠ some "\x7d"
  opens : opening.mark? = some "\x7b"

/-- The symbol of a parameter in a scope that begins at `start`. -/
def Token.asParameter (start : Nat) (name : Token) : Symbol :=
  ⟨name.text, .«variable», name.span.start - start, name.span.length, none⟩

/-- The head of a declaration, as far as it was read. -/
structure Reads (keyword : Token) (between : List Token) (declaration : PendingDeclaration) : Prop where
  heads : keyword.Heads declaration.scopeKind
  start : keyword.span.start = declaration.start
  plain : ∀ token ∈ between, token.mark? ≠ some "\x7b" ∧ token.mark? ≠ some "\x7d"
  gathered : ∃ depth segment, declaration.Stands depth segment ∧
    ∀ rest, headParameters (between ++ rest) = declaration.gathers depth segment rest

section

variable {keyword token : Token} {between segment : List Token}
  {declaration later : PendingDeclaration}

theorem Reads.of_begin? (begun : PendingDeclaration.begin? keyword = some declaration) :
    Reads keyword [] declaration := by
  obtain ⟨heads, begins⟩ := Token.heads_of_begin? begun
  obtain ⟨word, scopeKind, symbolKind, -, -, rfl⟩ := PendingDeclaration.begin?_eq_some begun
  exact ⟨heads, begins.symm, by simp, 0, [], ⟨rfl, rfl⟩, fun rest => rfl⟩

theorem Reads.concat (reads : Reads keyword between declaration) (opening : token.mark? ≠ some "\x7b")
    (closing : token.mark? ≠ some "\x7d") (goesOn : declaration.next? token = some later) :
    Reads keyword (between ++ [token]) later := by
  obtain ⟨start, -, -, kind⟩ := PendingDeclaration.same_next? goesOn
  obtain ⟨depth, segment, stands, gathered⟩ := reads.gathered
  obtain ⟨segment', stands', same⟩ := PendingDeclaration.passes_next? stands goesOn
  refine ⟨kind ▸ reads.heads, reads.start.trans start.symm, ?_, token.depthBehind depth, segment',
    stands', fun rest => ?_⟩
  · intro other member
    rcases List.mem_append.mp member with listed | last
    · exact reads.plain other listed
    · rw [List.mem_singleton.mp last]
      exact ⟨opening, closing⟩
  · rw [← same, ← gathered, ← List.append_cons]

theorem Reading.head_of_next? {reading : Reading} (goesOn : reading.next? token = some (.head later)) :
    ∃ declaration, reading = .head declaration ∧ token.mark? ≠ some "\x7b" ∧
      token.mark? ≠ some "\x7d" ∧ declaration.next? token = some later := by
  cases reading with
  | head declaration =>
      simp only [Reading.next?] at goesOn
      split at goesOn
      · cases goesOn
      · next opening =>
          split at goesOn
          · cases goesOn
          · next closing =>
              obtain ⟨next', goesOn, same⟩ := Option.map_eq_some_iff.mp goesOn
              cases same
              exact ⟨declaration, rfl, opening, closing, goesOn⟩
  | body builder =>
      simp only [Reading.next?] at goesOn
      split at goesOn <;> cases goesOn
  | whole => cases goesOn

theorem reads_of_ofTokens? (read : Reading.ofTokens? segment = some (.head declaration)) :
    ∃ keyword between, segment = keyword :: between ∧ Reads keyword between declaration := by
  cases segment with
  | nil => cases read
  | cons keyword between =>
      refine ⟨keyword, between, rfl, ?_⟩
      obtain ⟨first, begun, run⟩ := Option.bind_eq_some_iff.mp read
      clear read
      -- From the end: the reading is still a head only if it was one before the last token.
      induction between using List.reverseRecOn generalizing declaration with
      | nil =>
          obtain rfl : first = .head declaration := by simpa using run
          simp only [Reading.begin?] at begun
          split at begun
          · cases begun
          · obtain ⟨declaration', begun, same⟩ := Option.map_eq_some_iff.mp begun
            cases same
            exact .of_begin? begun
      | append_singleton between token ih =>
          rw [List.foldlM_append] at run
          obtain ⟨reading, front, last⟩ := Option.bind_eq_some_iff.mp run
          have goesOn : reading.next? token = some (.head declaration) := by simpa using last
          obtain ⟨earlier, rfl, opening, closing, goesOn⟩ := Reading.head_of_next? goesOn
          exact (ih front).concat opening closing goesOn

/-- The scope is opened by a declaration, behind whose brace all names of the scope but the parameters of
the declaration stand. The names are given with the bytes that they cover, up to `stop`. -/
def Parameterized (tokens : List Token) (kind : ScopeKind) (start stop : Nat)
    (names : List (Symbol × Span)) : Prop :=
  ∃ keyword between opening rest, OpensScope tokens kind start keyword between opening ∧
    names = (headParameters between).map (fun name => (name.asParameter start, name.span)) ++ rest ∧
    opening.span.stop ≤ stop ∧ ∀ entry ∈ rest, opening.span.stop ≤ entry.2.start

variable {tokens before after : List Token} {kind : ScopeKind} {start stop stop' : Nat}
  {names : List (Symbol × Span)}

theorem Parameterized.mono (parameterized : Parameterized tokens kind start stop names)
    (later : stop ≤ stop') : Parameterized tokens kind start stop' names := by
  obtain ⟨keyword, between, opening, rest, opens, same, behind, others⟩ := parameterized
  exact ⟨keyword, between, opening, rest, opens, same, Nat.le_trans behind later, others⟩

theorem Parameterized.concat (parameterized : Parameterized tokens kind start stop names)
    {entry : Symbol × Span} (here : stop ≤ entry.2.start) (later : stop ≤ stop') :
    Parameterized tokens kind start stop' (names ++ [entry]) := by
  obtain ⟨keyword, between, opening, rest, opens, rfl, behind, others⟩ := parameterized
  refine ⟨keyword, between, opening, rest ++ [entry], opens, List.append_assoc _ _ _,
    Nat.le_trans behind later, fun other member => ?_⟩
  rcases List.mem_append.mp member with listed | last
  · exact others other listed
  · rw [List.mem_singleton.mp last]
    exact Nat.le_trans behind here

/-- The names of an open scope with the bytes that they cover. -/
def Frame.placed (frame : Frame) : List (Symbol × Span) :=
  frame.symbols.reverse.map fun symbol => (symbol, symbol.place frame.start)

/-- The scope that a brace opens has the parameters in the head before the brace, and no other names. -/
theorem parameterized_opened (split : before ++ token :: after = tokens)
    (tiles : Tiles 0 before token.span.start) (opening : token.mark? = some "\x7b")
    (owned : ((before.foldl read .initial).opened token).kind ≠ .block) :
    Parameterized tokens ((before.foldl read .initial).opened token).kind
      ((before.foldl read .initial).opened token).start token.span.stop
      ((before.foldl read .initial).opened token).placed := by
  have grounded := Grounded.run tiles
  have surveyed : Surveyed before token.span.start token.span.start (before.foldl read .initial) :=
    Surveyed.run tiles
  cases waits : (before.foldl read .initial).pending with
  | nothing | binding => simp [ScopeBuilder.opened, waits, Frame.opening] at owned
  | declaration declaration =>
      obtain ⟨segment, ⟨front, whole⟩, read⟩ := grounded.waiting declaration waits
      obtain ⟨keyword, between, rfl, reads⟩ := reads_of_ofTokens? read
      obtain ⟨depth, segment, stands, gathered⟩ := reads.gathered
      have collected : headParameters between = declaration.endSegment.parameters.reverse := by
        have all := gathered []
        rw [List.append_nil, PendingDeclaration.gathers_endSegment stands] at all
        rw [all]
        cases stage : declaration.stage <;>
          simp [PendingDeclaration.endSegment, PendingDeclaration.documented, stage]
      have begins : declaration.endSegment.start = declaration.start :=
        PendingDeclaration.start_frame_endSegment
      have kind : declaration.endSegment.scopeKind = declaration.scopeKind :=
        PendingDeclaration.kind_frame_endSegment
      simp only [ScopeBuilder.opened, waits, Frame.placed, PendingDeclaration.frame, begins, kind]
      refine ⟨keyword, between, token, [], ⟨⟨front, after, ?_⟩, reads.heads, reads.start, reads.plain,
        opening⟩, ?_, Nat.le_refl _, by simp⟩
      · rw [← split, ← whole]
      · rw [collected, List.append_nil, ← List.map_reverse, List.map_map]
        refine List.map_congr_left fun name listed => ?_
        have member := PendingDeclaration.parameters_endSegment.subset (List.mem_reverse.mp listed)
        have inside := (surveyed.waiting declaration waits).noted.inside name member
        simp only [Function.comp_apply, Token.asParameter,
          Symbol.place_of_span inside.1 (Nat.le_of_lt inside.2.1)]

theorem keeps_parameterized :
    Keeps tokens
      (fun stop frame => frame.kind ≠ .«module» → frame.kind ≠ .block →
        Parameterized tokens frame.kind frame.start stop frame.placed)
      (fun _ _ _ => True)
      (fun start scope => scope.head.kind ≠ .«module» → scope.head.kind ≠ .block →
        ∃ stop, Parameterized tokens scope.head.kind start stop
          (scope.head.symbols.map fun symbol => (symbol, symbol.place start))) where
  first := fun owned => absurd rfl owned
  later := fun _ _ _ later parameterized owned headed => (parameterized owned headed).mono later
  notes := by
    intro before token after split tiles filled parameterized
    have longer := Nat.le_of_lt filled
    cases (before.foldl read .initial).pending.names? token with
    | none => exact fun owned headed => (parameterized owned headed).mono longer
    | some naming =>
        intro owned headed
        have begins := (Grounded.run tiles).start_le_stop
        have place := Symbol.place_of_span begins longer token.text naming.1 naming.2
        simp only [Frame.placed, Frame.note, Frame.declare, List.reverse_cons, List.map_append,
          List.map_singleton]
        apply (parameterized owned headed).concat _ longer
        rw [place]
  opens := fun before token after split tiles _ opening =>
    ⟨fun _ headed => parameterized_opened split tiles opening headed, trivial⟩
  attaches := fun _ _ _ _ _ _ parameterized _ => parameterized
  ends := fun stop _ _ _ parameterized owned headed => ⟨stop, parameterized owned headed⟩

end

/-- The first names of each scope that a declaration opens are the parameters in the declaration's head,
and all its other names come behind the opening brace. -/
theorem parameters_ofTokens (text : String) (node : ScopeTree)
    (within : Within (ScopeTree.ofTokens (lex text)) node)
    (owned : node.entry.head.kind ≠ .«module») (headed : node.entry.head.kind ≠ .block) :
    ∃ keyword between opening rest,
      OpensScope (lex text) node.entry.head.kind node.entry.span.start keyword between opening ∧
      node.entry.symbols = (headParameters between).map
        (fun name => (name.asParameter node.entry.span.start, name.span)) ++ rest ∧
      ∀ entry ∈ rest, opening.span.stop ≤ entry.2.start := by
  have kept := keeps_parameterized.within_ofTokens (lex_tiles text) within
  obtain ⟨stop, keyword, between, opening, rest, opens, same, -, others⟩ := kept owned headed
  exact ⟨keyword, between, opening, rest, opens, same, others⟩

/-- The parentheses that name an operator are a list too, and a default value names no parameter. -/
theorem parameters_ofTokens_operator :
    ∃ keyword between opening rest,
      OpensScope (lex "operator ()(int a, B; int c = d e) \x7b int f; \x7d") .function 0 keyword between
        opening ∧
      [("a", 16), ("c", 26), ("f", 41)] = (headParameters between).map
        (fun name => (name.text, name.span.start)) ++ rest := by
  have scopes : (ScopeTree.ofTokens
      (lex "operator ()(int a, B; int c = d e) \x7b int f; \x7d")).branches.map (fun branch =>
        (branch.entry.head.kind, branch.entry.span.start,
          branch.entry.symbols.map fun entry => (entry.1.name, entry.2.start))) =
      [(.function, 0, [("a", 16), ("c", 26), ("f", 41)])] := by decide +kernel
  obtain ⟨node, branches, same⟩ := List.map_eq_singleton_iff.mp scopes
  obtain ⟨kind, start, names⟩ := by simpa only [Prod.mk.injEq] using same
  have within : Within (ScopeTree.ofTokens
      (lex "operator ()(int a, B; int c = d e) \x7b int f; \x7d")) node :=
    .single (branches ▸ List.mem_singleton_self node)
  obtain ⟨keyword, between, opening, rest, opens, symbols, -⟩ :=
    parameters_ofTokens _ node within (by simp [kind]) (by simp [kind])
  rw [kind, start] at opens
  refine ⟨keyword, between, opening, rest.map fun entry => (entry.1.name, entry.2.start), opens, ?_⟩
  rw [← names, symbols, List.map_append, List.map_map]
  rfl

end MuCompletion
