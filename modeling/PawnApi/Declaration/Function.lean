/-
  Function-like declarations.

  A declaration starts with one of four keywords, more of them or static may follow, and
  the last of the four decides the kind. Then come a return type, a name, a parenthesised
  parameter list, and a semicolon or a body. The legacy marker New and a colon may stand
  before the return type. In a methodmap a name directly before the parameter list is a
  constructor, which returns its own type.
-/
import PawnApi.Entry.Basic
import PawnApi.Source.Group
import PawnApi.Text.Blank
import PawnApi.Text.Lines

namespace PawnApi.Declaration

open PawnApi.Source

/-! ## Types -/

/-- The type at the front of a token list, and the tokens after it: an identifier and
    its dimensions, each trimmed inside. -/
def typeName? : List Token → Option (String × List Token)
  | [] => none
  | t :: ts => do
    let _ ← t.ident?
    let (dims, rest) ← dimensions? ts
    let suffix := dims.flatMap fun g => '[' :: Text.trim g.text ++ [']']
    return (String.ofList (t.text ++ suffix), rest)

/-- The identifier at the front of a token list, and the tokens after it. -/
def ident? : List Token → Option (String × List Token)
  | [] => none
  | t :: ts => t.ident?.map fun name => (name, ts)

/-! ## Keywords -/

/-- The kind that a keyword token stands for. -/
def kind? (t : Token) : Option FunctionKind :=
  t.ident?.bind FunctionKind.ofKeyword?

/-- Skips the keywords after the first one. The last of them decides the kind. -/
def skipKeywords (kind : FunctionKind) : List Token → FunctionKind × List Token
  | [] => (kind, [])
  | t :: ts =>
    match kind? t with
    | some k => skipKeywords k ts
    | none => if t.isWord "static" then skipKeywords kind ts else (kind, t :: ts)

/-- Skips the legacy marker and its colon. -/
def skipMarker : List Token → List Token
  | t :: u :: ts => if t.isWord "New" && u.isPunct ':' then ts else t :: u :: ts
  | ts => ts

/-- Whether the second token of a list is an opening parenthesis. -/
def callFollows : List Token → Bool
  | _ :: u :: _ => u.isPunct '('
  | _ => false

/-- The return type and the name, and the tokens after them. Where constructors are
    allowed, a lone name before the parameter list is both. -/
def resultAndName? (constructors : Bool) (ts : List Token) :
    Option (String × String × List Token) :=
  if constructors && callFollows ts then do
    let (name, rest) ← ident? ts
    return (name, name, rest)
  else do
    let (type, rest) ← typeName? ts
    let (name, rest) ← ident? rest
    return (type, name, rest)

/-! ## The whole declaration -/

/-- How a declaration ends: the tokens that no longer belong to what is quoted, and the
    tokens after it. A body is not quoted; one that is never closed takes all that is
    left. -/
def ending? : List Token → Option (List Token × List Token)
  | [] => none
  | t :: ts =>
    if t.isPunct ';' then some (ts, ts)
    else if t.isPunct '{' then
      match closeGroup? '{' '}' 0 ts with
      | some g => some (t :: ts, g.rest)
      | none => some (t :: ts, [])
    else none

/-- The text of the tokens that `rest` no longer holds, on one line. -/
def quote (ts rest : List Token) : String :=
  String.ofList (Text.onOneLine (Token.span (ts.take (ts.length - rest.length))))

/-- A function-like declaration. -/
structure Function where
  kind : FunctionKind
  returnType : String
  name : String
  /-- The tokens between the parentheses. -/
  params : List Token
  /-- The declaration as written, on one line and without a body. -/
  written : String
  deriving DecidableEq, Repr

/-- The declaration at the front of a token list, and the tokens after it. -/
def function? (constructors : Bool) (ts : List Token) : Option (Function × List Token) :=
  match ts with
  | [] => none
  | t :: us => do
    let first ← kind? t
    let (kind, rest) := skipKeywords first us
    let (returnType, name, rest) ← resultAndName? constructors (skipMarker rest)
    let g ← group? '(' ')' rest
    let (unquoted, after) ← ending? g.rest
    return (⟨kind, returnType, name, g.inside, quote ts unquoted⟩, after)

/-! ## Progress -/

theorem length_rest_of_typeName? {ts rest : List Token} {type : String}
    (h : typeName? ts = some (type, rest)) : rest.length < ts.length := by
  cases ts with
  | nil => simp [typeName?] at h
  | cons t ts =>
    simp only [typeName?, Option.bind_eq_bind, Option.bind_eq_some_iff, Option.pure_def,
      Option.some.injEq, Prod.mk.injEq] at h
    obtain ⟨_, _, ⟨dims, rest'⟩, hd, _, rfl⟩ := h
    have := length_rest_of_dimensions? hd
    simp only [List.length_cons]
    omega

theorem length_rest_of_ident? {ts rest : List Token} {name : String}
    (h : ident? ts = some (name, rest)) : rest.length < ts.length := by
  cases ts with
  | nil => simp [ident?] at h
  | cons t ts =>
    simp only [ident?, Option.map_eq_some_iff, Prod.mk.injEq] at h
    obtain ⟨_, _, _, rfl⟩ := h
    simp

theorem length_skipKeywords_le (kind : FunctionKind) (ts : List Token) :
    (skipKeywords kind ts).2.length ≤ ts.length := by
  induction ts generalizing kind with
  | nil => simp [skipKeywords]
  | cons t ts ih =>
    rw [skipKeywords]
    split
    · have := ih ‹_›
      simp only [List.length_cons]
      omega
    · split
      · have := ih kind
        simp only [List.length_cons]
        omega
      · simp

theorem length_skipMarker_le (ts : List Token) : (skipMarker ts).length ≤ ts.length := by
  unfold skipMarker
  split
  · split
    · simp only [List.length_cons]
      omega
    · exact Nat.le_refl _
  · exact Nat.le_refl _

theorem length_rest_of_resultAndName? {constructors : Bool} {ts rest : List Token}
    {type name : String} (h : resultAndName? constructors ts = some (type, name, rest)) :
    rest.length < ts.length := by
  unfold resultAndName? at h
  split at h
  · simp only [Option.bind_eq_bind, Option.bind_eq_some_iff, Option.pure_def,
      Option.some.injEq, Prod.mk.injEq] at h
    obtain ⟨⟨n, r⟩, hi, _, _, rfl⟩ := h
    exact length_rest_of_ident? hi
  · simp only [Option.bind_eq_bind, Option.bind_eq_some_iff, Option.pure_def,
      Option.some.injEq, Prod.mk.injEq] at h
    obtain ⟨⟨ty, r⟩, ht, ⟨n, r'⟩, hi, _, _, rfl⟩ := h
    have h₁ := length_rest_of_typeName? ht
    have h₂ := length_rest_of_ident? hi
    simp only at h₁ h₂ ⊢
    omega

theorem length_after_of_ending? {ts unquoted after : List Token}
    (h : ending? ts = some (unquoted, after)) : after.length ≤ ts.length := by
  cases ts with
  | nil => simp [ending?] at h
  | cons t ts =>
    rw [ending?] at h
    split at h
    · simp only [Option.some.injEq, Prod.mk.injEq] at h
      obtain ⟨_, rfl⟩ := h
      simp
    split at h
    · split at h
      · rename_i g hg
        simp only [Option.some.injEq, Prod.mk.injEq] at h
        obtain ⟨_, rfl⟩ := h
        have := length_rest_of_closeGroup? hg
        simp only [List.length_cons]
        omega
      · simp only [Option.some.injEq, Prod.mk.injEq] at h
        obtain ⟨_, rfl⟩ := h
        simp
    · simp at h

/-- Reading a declaration makes progress. -/
theorem length_after_of_function? {constructors : Bool} {ts after : List Token} {f : Function}
    (h : function? constructors ts = some (f, after)) : after.length < ts.length := by
  cases ts with
  | nil => simp [function?] at h
  | cons t us =>
    simp only [function?, Option.bind_eq_bind, Option.bind_eq_some_iff, Option.pure_def,
      Option.some.injEq, Prod.mk.injEq] at h
    obtain ⟨first, _, ⟨type, name, rest⟩, hr, g, hg, ⟨unquoted, after'⟩, he, _, rfl⟩ := h
    have h₁ := length_skipKeywords_le first us
    have h₂ := length_skipMarker_le (skipKeywords first us).2
    have h₃ := length_rest_of_resultAndName? hr
    have h₄ := length_rest_of_group? hg
    have h₅ := length_after_of_ending? he
    simp only [List.length_cons] at *
    omega

end PawnApi.Declaration
