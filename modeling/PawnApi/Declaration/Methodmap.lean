/-
  The members of a methodmap body.

  Members are methods, constructors and public properties. Everything else is skipped
  statement by statement, and so are the accessors of a property. Documentation inside
  the body is not attached to anything.
-/
import PawnApi.Declaration.Function
import PawnApi.Param.Reader

namespace PawnApi.Declaration

open PawnApi.Source

/-- A member of a methodmap body. -/
inductive Member where
  | method (m : Method)
  | property (p : Property)
  deriving DecidableEq, Repr

namespace Member

def method? : Member → Option Method
  | method m => some m
  | property _ => none

def property? : Member → Option Property
  | method _ => none
  | property p => some p

end Member

/-- The tokens after the words that introduce a property. -/
def propertyFollows? : List Token → Option (List Token)
  | t :: u :: ts => if t.isWord "public" && u.isWord "property" then some ts else none
  | _ => none

/-- The property whose type and name come next, and the tokens after them. -/
def property? (ts : List Token) : Option (Property × List Token) := do
  let (type, rest) ← typeName? ts
  let (name, rest) ← ident? rest
  return (⟨name, type⟩, rest)

/-- A function-like declaration as a member. Its parameters have no documentation. -/
def Function.toMethod (f : Function) : Method where
  name := f.name
  kind := f.kind
  returnType := f.returnType
  params := Param.ofTokens {} f.params
  fullDeclaration := f.written

theorem length_lt_of_propertyFollows? {ts rest : List Token}
    (h : propertyFollows? ts = some rest) : rest.length < ts.length := by
  unfold propertyFollows? at h
  split at h
  · split at h
    · simp only [Option.some.injEq] at h
      subst h
      simp only [List.length_cons]
      omega
    · simp at h
  · simp at h

theorem length_rest_of_property? {ts rest : List Token} {p : Property}
    (h : property? ts = some (p, rest)) : rest.length < ts.length := by
  simp only [property?, Option.bind_eq_bind, Option.bind_eq_some_iff, Option.pure_def,
    Option.some.injEq, Prod.mk.injEq] at h
  obtain ⟨⟨type, r⟩, ht, ⟨name, r'⟩, hn, _, rfl⟩ := h
  have h₁ := length_rest_of_typeName? ht
  have h₂ := length_rest_of_ident? hn
  simp only at h₁ h₂ ⊢
  omega

/-- The members of a body, in order. -/
def members (ts : List Token) : List Member :=
  match ts with
  | [] => []
  | t :: us =>
    match _hp : propertyFollows? (t :: us) with
    | some rest =>
      match _hq : property? rest with
      | some (p, rest) => .property p :: members (dropStatement rest)
      | none => members (dropStatement (t :: us))
    | none =>
      match _hf : function? true (t :: us) with
      | some (f, after) => .method f.toMethod :: members after
      | none => members (dropStatement (t :: us))
termination_by ts.length
decreasing_by
  · have h₁ := length_lt_of_propertyFollows? _hp
    have h₂ := length_rest_of_property? _hq
    have h₃ := length_dropStatement_le ‹List Token›
    omega
  · exact length_dropStatement_lt t us
  · exact length_after_of_function? _hf
  · exact length_dropStatement_lt t us

/-- The methods of a body, in order. -/
def methods (ts : List Token) : List Method :=
  (members ts).filterMap Member.method?

/-- The properties of a body, in order. -/
def properties (ts : List Token) : List Property :=
  (members ts).filterMap Member.property?

end PawnApi.Declaration
