/-
  Cutting a parameter list at its top-level commas.

  A comma counts if it stands outside brackets of every kind and outside angle pairs.
  An angle pair opens where a less-than sign touches the identifier before it and does
  not begin a shift or a comparison. Closing brackets and greater-than signs with
  nothing to close are ignored.
-/
import PawnApi.Source.Token

namespace PawnApi.Param

open PawnApi.Source

/-- How many brackets and angle pairs are open. -/
structure Nesting where
  brackets : Nat := 0
  angles : Nat := 0
  deriving DecidableEq, Repr

/-- Whether a less-than sign opens an angle pair, given whether an identifier stands
    before it, and the tokens after it. -/
def opensAngle (afterIdent : Bool) (t : Token) (rest : List Token) : Bool :=
  afterIdent && t.gap.isEmpty &&
    !(rest.head?.any fun n => n.gap.isEmpty && (n.isPunct '<' || n.isPunct '='))

/-- What is open after a token. -/
def Nesting.after (n : Nesting) (afterIdent : Bool) (t : Token) (rest : List Token) : Nesting :=
  if t.isPunct '(' || t.isPunct '[' || t.isPunct '{' then { n with brackets := n.brackets + 1 }
  else if t.isPunct ')' || t.isPunct ']' || t.isPunct '}' then
    { n with brackets := n.brackets - 1 }
  else if t.isPunct '<' && opensAngle afterIdent t rest then { n with angles := n.angles + 1 }
  else if t.isPunct '>' then { n with angles := n.angles - 1 }
  else n

/-- Whether nothing is open. -/
def Nesting.isClosed (n : Nesting) : Bool :=
  n.brackets == 0 && n.angles == 0

/-- Cuts tokens at the commas where nothing is open: the tokens before the first such
    comma, and those of each later stretch. -/
def cut (n : Nesting) (afterIdent : Bool) : List Token → List Token × List (List Token)
  | [] => ([], [])
  | t :: ts =>
    if t.isPunct ',' && n.isClosed then
      let p := cut n false ts
      ([], p.1 :: p.2)
    else
      let p := cut (n.after afterIdent t ts) (t.kind = .ident) ts
      (t :: p.1, p.2)

/-- The stretches between top-level commas that hold a token. -/
def pieces (ts : List Token) : List (List Token) :=
  let p := cut {} false ts
  (p.1 :: p.2).filter (!·.isEmpty)

/-- The texts between the top-level commas of a parameter list, each from its first
    token through its last. -/
def pieceTexts (raw : List Char) : List (List Char) :=
  (pieces (tokens raw)).map Token.span

end PawnApi.Param
