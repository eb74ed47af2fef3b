/-
  Documentation comments: a description and tags.
-/

namespace PawnApi.Doc

/-- A documented parameter. -/
structure ParamTag where
  name : String
  description : String
  deriving DecidableEq, Repr

/-- The tags of a documentation comment, each kind in the order written. -/
structure Tags where
  param : List ParamTag := []
  error : List String := []
  note : List String := []
  /-- The last return tag wins; empty when there is none. -/
  returns : String := ""
  deprecated : List String := []
  see : List String := []
  author : List String := []
  deriving DecidableEq, Repr

/-- A documentation comment. -/
structure Comment where
  /-- The text before the first tag. -/
  description : String := ""
  tags : Tags := {}
  deriving DecidableEq, Repr

namespace Tags

/-- The description of the first parameter tag with this name. -/
def paramDescription? (tags : Tags) (name : String) : Option String :=
  (tags.param.find? fun p => p.name = name).map ParamTag.description

/-- Whether the comment carries a deprecation tag. -/
def isDeprecated (tags : Tags) : Bool :=
  !tags.deprecated.isEmpty

end Tags

end PawnApi.Doc
