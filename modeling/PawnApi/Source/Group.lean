/-
  Bracket groups and statements in a token list.

  A group is an opening bracket, the tokens up to the closing bracket that matches it,
  and that closing bracket. Only the two brackets of the pair count: others inside may
  stand in any order. A statement ends at its first semicolon, or with its first brace
  group and the semicolon that may follow it.
-/
import PawnApi.Source.Token

namespace PawnApi.Source

/-- What follows an opening bracket: the tokens inside the group, the token that closes
    it, and the tokens after it. -/
structure Group where
  inside : List Token
  closer : Token
  rest : List Token
  deriving DecidableEq, Repr

namespace Group

/-- The text between the brackets. -/
def text (g : Group) : List Char :=
  Token.render g.inside ++ g.closer.gap

/-- Puts a token in front of the tokens inside. -/
def push (t : Token) (g : Group) : Group :=
  { g with inside := t :: g.inside }

@[simp] theorem rest_push (t : Token) (g : Group) : (g.push t).rest = g.rest := rfl

@[simp] theorem closer_push (t : Token) (g : Group) : (g.push t).closer = g.closer := rfl

@[simp] theorem inside_push (t : Token) (g : Group) : (g.push t).inside = t :: g.inside := rfl

end Group

/-- Looks for the token that closes a group, with `depth` groups open inside it. -/
def closeGroup? (opn cls : Char) : Nat → List Token → Option Group
  | _, [] => none
  | depth, t :: ts =>
    if t.isPunct opn then (closeGroup? opn cls (depth + 1) ts).map (Group.push t)
    else if t.isPunct cls then
      if depth = 0 then some ⟨[], t, ts⟩
      else (closeGroup? opn cls (depth - 1) ts).map (Group.push t)
    else (closeGroup? opn cls depth ts).map (Group.push t)

/-- The group at the front of a token list, if the list starts with the opening bracket
    and the group is closed. -/
def group? (opn cls : Char) : List Token → Option Group
  | [] => none
  | t :: ts => if t.isPunct opn then closeGroup? opn cls 0 ts else none

theorem append_of_closeGroup? {opn cls : Char} {depth : Nat} {ts : List Token} {g : Group}
    (h : closeGroup? opn cls depth ts = some g) : g.inside ++ g.closer :: g.rest = ts := by
  induction ts generalizing depth g with
  | nil => simp [closeGroup?] at h
  | cons t ts ih =>
    rw [closeGroup?] at h
    split at h
    · obtain ⟨g', hg', rfl⟩ := Option.map_eq_some_iff.1 h
      simp [ih hg']
    split at h
    · split at h
      · simp only [Option.some.injEq] at h
        subst h
        rfl
      · obtain ⟨g', hg', rfl⟩ := Option.map_eq_some_iff.1 h
        simp [ih hg']
    · obtain ⟨g', hg', rfl⟩ := Option.map_eq_some_iff.1 h
      simp [ih hg']

theorem length_rest_of_closeGroup? {opn cls : Char} {depth : Nat} {ts : List Token} {g : Group}
    (h : closeGroup? opn cls depth ts = some g) : g.rest.length < ts.length := by
  rw [← append_of_closeGroup? h]
  simp only [List.length_append, List.length_cons]
  omega

theorem length_rest_of_group? {opn cls : Char} {ts : List Token} {g : Group}
    (h : group? opn cls ts = some g) : g.rest.length < ts.length := by
  cases ts with
  | nil => simp [group?] at h
  | cons t ts =>
    rw [group?] at h
    split at h
    · have := length_rest_of_closeGroup? h
      simp only [List.length_cons]
      omega
    · simp at h

/-! ## Groups in a row -/

/-- The square-bracket groups in a row at the front of a token list, and the tokens after
    them; `none` if one of them is not closed. -/
def dimensions? (ts : List Token) : Option (List Group × List Token) :=
  match ts with
  | [] => some ([], [])
  | t :: ts =>
    if t.isPunct '[' then
      match _h : closeGroup? '[' ']' 0 ts with
      | none => none
      | some g => (dimensions? g.rest).map fun p => (g :: p.1, p.2)
    else some ([], t :: ts)
termination_by ts.length
decreasing_by
  have := length_rest_of_closeGroup? _h
  simp only [List.length_cons]
  omega

theorem dimensions?_of_head {ts : List Token} (h : ∀ t ∈ ts.head?, t.isPunct '[' = false) :
    dimensions? ts = some ([], ts) := by
  cases ts with
  | nil => rw [dimensions?]
  | cons t ts => rw [dimensions?, if_neg (by simp [h t rfl])]

theorem length_rest_of_dimensions? {ts rest : List Token} {gs : List Group}
    (h : dimensions? ts = some (gs, rest)) : rest.length ≤ ts.length := by
  fun_induction dimensions? ts generalizing gs rest with
  | case1 => simp_all
  | case2 => simp at h
  | case3 t ts _ g hg ih =>
    obtain ⟨⟨gs', rest'⟩, hg', hp⟩ := Option.map_eq_some_iff.1 h
    simp only [Prod.mk.injEq] at hp
    obtain ⟨rfl, rfl⟩ := hp
    have h₁ := ih hg'
    have h₂ := length_rest_of_closeGroup? hg
    simp only [List.length_cons]
    omega
  | case4 =>
    simp only [Option.some.injEq, Prod.mk.injEq] at h
    obtain ⟨rfl, rfl⟩ := h
    exact Nat.le_refl _

/-! ## Statements -/

/-- Drops one semicolon. -/
def dropSemicolon : List Token → List Token
  | [] => []
  | t :: ts => if t.isPunct ';' then ts else t :: ts

/-- Drops the first statement. A brace group that is never closed takes all that is left. -/
def dropStatement : List Token → List Token
  | [] => []
  | t :: ts =>
    if t.isPunct '{' then
      match closeGroup? '{' '}' 0 ts with
      | some g => dropSemicolon g.rest
      | none => []
    else if t.isPunct ';' then ts
    else dropStatement ts

theorem length_dropSemicolon_le (ts : List Token) : (dropSemicolon ts).length ≤ ts.length := by
  cases ts with
  | nil => simp [dropSemicolon]
  | cons t ts =>
    rw [dropSemicolon]
    split <;> simp

theorem length_dropStatement_le (ts : List Token) : (dropStatement ts).length ≤ ts.length := by
  induction ts with
  | nil => simp [dropStatement]
  | cons t ts ih =>
    rw [dropStatement]
    split
    · split
      · rename_i g hg
        have h₁ := length_dropSemicolon_le g.rest
        have h₂ := length_rest_of_closeGroup? hg
        simp only [List.length_cons]
        omega
      · simp
    split
    · simp
    · simp only [List.length_cons]
      omega

/-- Dropping a statement makes progress. -/
theorem length_dropStatement_lt (t : Token) (ts : List Token) :
    (dropStatement (t :: ts)).length < (t :: ts).length := by
  rw [dropStatement]
  split
  · split
    · rename_i g hg
      have h₁ := length_dropSemicolon_le g.rest
      have h₂ := length_rest_of_closeGroup? hg
      simp only [List.length_cons]
      omega
    · simp
  split
  · simp
  · have := length_dropStatement_le ts
    simp only [List.length_cons]
    omega

end PawnApi.Source
