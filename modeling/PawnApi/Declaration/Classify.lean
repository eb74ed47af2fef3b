/-
  Finding the declaration that a documentation block documents.

  A declaration may start at any token that opens a line outside braces. Functions are
  looked for first, then methodmaps, then typedefs, and of each shape the first match
  counts.
-/
import PawnApi.Declaration.Methodmap
import PawnApi.Doc.Comment

namespace PawnApi.Declaration

open PawnApi.Source

/-- A recognised declaration without its documentation. -/
structure Found where
  name : String
  shape : Shape
  written : String
  deriving DecidableEq, Repr

/-! ## Where a declaration may start -/

/-- The brace depth after a token. A closing brace with nothing to close is ignored. -/
def depthAfter (depth : Nat) (t : Token) : Nat :=
  if t.isPunct '{' then depth + 1 else if t.isPunct '}' then depth - 1 else depth

/-- The tails of a token list that start with a token that opens a line outside braces. -/
def statementsFrom (depth : Nat) : List Token → List (List Token)
  | [] => []
  | t :: ts =>
    let later := statementsFrom (depthAfter depth t) ts
    if depth = 0 ∧ t.opensLine then (t :: ts) :: later else later

/-- The places of a code where a declaration may start. -/
def statements (ts : List Token) : List (List Token) :=
  statementsFrom 0 ts

/-! ## The three shapes -/

/-- A function at the front of a token list. -/
def functionAt? (tags : Doc.Tags) (ts : List Token) : Option Found := do
  let (f, _) ← function? false ts
  return ⟨f.name, .function f.kind f.returnType (Param.ofTokens tags f.params), f.written⟩

/-- The parent of a methodmap, if a less-than sign announces one, and the tokens after
    it. -/
def parent? : List Token → Option (Option String × List Token)
  | [] => some (none, [])
  | t :: ts =>
    if t.isPunct '<' then (ident? ts).map fun p => (some p.1, p.2) else some (none, t :: ts)

/-- The tokens of the first brace group, if it comes before any semicolon and is closed. -/
def bodyTokens : List Token → List Token
  | [] => []
  | t :: ts =>
    if t.isPunct '{' then ((closeGroup? '{' '}' 0 ts).map Group.inside).getD []
    else if t.isPunct ';' then []
    else bodyTokens ts

/-- A methodmap at the front of a token list. -/
def methodmapAt? (ts : List Token) : Option Found :=
  match ts with
  | [] => none
  | t :: us => do
    guard (t.isWord "methodmap")
    let (name, rest) ← ident? us
    let (inherits, rest) ← parent? rest
    let body := bodyTokens rest
    return ⟨name, .methodmap inherits (methods body) (properties body), quote ts rest⟩

/-- The tokens after the equals sign and the word that announce a function type. -/
def functionTypeFollows? : List Token → Option (List Token)
  | t :: u :: ts => if t.isPunct '=' && u.isWord "function" then some ts else none
  | _ => none

/-- The tokens after a semicolon. -/
def afterSemicolon? : List Token → Option (List Token)
  | [] => none
  | t :: ts => if t.isPunct ';' then some ts else none

/-- A typedef at the front of a token list. -/
def typedefAt? (tags : Doc.Tags) (ts : List Token) : Option Found :=
  match ts with
  | [] => none
  | t :: us => do
    guard (t.isWord "typedef")
    let (name, rest) ← ident? us
    let rest ← functionTypeFollows? rest
    let (returnType, rest) ← typeName? rest
    let g ← group? '(' ')' rest
    let after ← afterSemicolon? g.rest
    return ⟨name, .typedef returnType (Param.ofTokens tags g.inside), quote ts after⟩

/-! ## The declaration of a code -/

/-- The declaration that the tokens of a code hold. -/
def find? (tags : Doc.Tags) (ts : List Token) : Option Found :=
  let starts := statements ts
  (starts.findSome? (functionAt? tags)).or
    ((starts.findSome? methodmapAt?).or (starts.findSome? (typedefAt? tags)))

/-- The entry for the declaration in a code, documented by a comment. -/
def classify (code : List Char) (comment : Doc.Comment) (file : String) : Option Entry :=
  (find? comment.tags (tokens code)).map fun d =>
    { name := d.name
      shape := d.shape
      comment := comment.description
      tags := comment.tags
      fullDeclaration := d.written
      sourceFile := file }

end PawnApi.Declaration
