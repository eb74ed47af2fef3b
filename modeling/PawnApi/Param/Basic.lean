/-
  Declared parameters.
-/

namespace PawnApi

/-- A parameter of a function, method or typedef. -/
structure Param where
  name : String
  /-- The type as written, with its dimensions and without blanks. -/
  type : String
  /-- The text after the equals sign, if there is any. -/
  default : Option String := none
  /-- From the documentation; empty when there is none. -/
  description : String := ""
  deriving DecidableEq, Repr

namespace Param

/-- Whether a caller may leave the parameter out. -/
def isOptional (p : Param) : Bool :=
  p.default.isSome

end Param

end PawnApi
