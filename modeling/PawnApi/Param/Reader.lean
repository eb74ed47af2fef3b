/-
  Reading parameters.

  A parameter is an optional const, a type with dimensions, an optional ampersand, a name
  with dimensions, and an optional default after an equals sign. A piece of any other
  form, variadic ones included, declares no parameter.
-/
import PawnApi.Doc.Comment
import PawnApi.Param.Basic
import PawnApi.Param.Pieces
import PawnApi.Source.Group
import PawnApi.Text.Blank

namespace PawnApi.Param

open PawnApi.Source

/-- Drops the word `w` if it comes next. -/
def dropWord (w : String) : List Token → List Token
  | [] => []
  | t :: ts => if t.isWord w then ts else t :: ts

/-- Drops the character `c` if it comes next. -/
def dropPunct (c : Char) : List Token → List Token
  | [] => []
  | t :: ts => if t.isPunct c then ts else t :: ts

/-- The type at the front of a token list, and the tokens after it. The text between its
    first and last token is kept but for the blanks. -/
def type? : List Token → Option (String × List Token)
  | [] => none
  | t :: ts => do
    let _ ← t.ident?
    let (_, rest) ← dimensions? ts
    let written := Token.span (t :: ts.take (ts.length - rest.length))
    return (String.ofList (written.filter fun c => !Text.isBlank c), rest)

/-- The name at the front of a token list, and the tokens after its dimensions, which
    belong to the name and not to the type. -/
def name? : List Token → Option (String × List Token)
  | [] => none
  | t :: ts => do
    let name ← t.ident?
    let (_, rest) ← dimensions? ts
    return (name, rest)

/-- The default that follows a name: none at the end of the piece or when nothing stands
    after the equals sign. Anything else than an equals sign is refused. -/
def default? : List Token → Option (Option String)
  | [] => some none
  | t :: ts =>
    if t.isPunct '=' then
      let text := Text.trim (Token.render ts)
      some (if text.isEmpty then none else some (String.ofList text))
    else none

/-- Reads one piece of a parameter list. -/
def ofPiece? (piece : List Token) : Option Param := do
  let (type, rest) ← type? (dropWord "const" piece)
  let (name, rest) ← name? (dropPunct '&' rest)
  let default ← default? rest
  return { name, type, default }

/-- Attaches the documentation of the parameter's name. -/
def document (tags : Doc.Tags) (p : Param) : Param :=
  { p with description := (tags.paramDescription? p.name).getD "" }

/-- The parameters of a list, with their documentation. -/
def ofTokens (tags : Doc.Tags) (ts : List Token) : List Param :=
  ((pieces ts).filterMap ofPiece?).map (document tags)

/-- The parameters of a list given as text. -/
def ofText (tags : Doc.Tags) (raw : List Char) : List Param :=
  ofTokens tags (tokens raw)

end PawnApi.Param
