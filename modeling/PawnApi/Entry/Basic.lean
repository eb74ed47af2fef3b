/-
  Entries of the inventory: one per documented declaration.
-/
import PawnApi.Doc.Comment
import PawnApi.Param.Basic

namespace PawnApi

/-- The keyword that a function-like declaration is filed under. -/
inductive FunctionKind where
  | native
  | stock
  | forward
  /-- The keyword is public. -/
  | published
  deriving DecidableEq, Repr

namespace FunctionKind

def keyword : FunctionKind → String
  | native => "native"
  | stock => "stock"
  | forward => "forward"
  | published => "public"

def ofKeyword? : String → Option FunctionKind
  | "native" => some native
  | "stock" => some stock
  | "forward" => some forward
  | "public" => some published
  | _ => none

@[simp] theorem ofKeyword?_keyword (k : FunctionKind) : ofKeyword? k.keyword = some k := by
  cases k <;> rfl

end FunctionKind

/-- A method or constructor of a methodmap. -/
structure Method where
  name : String
  kind : FunctionKind
  returnType : String
  params : List Param
  fullDeclaration : String
  deriving DecidableEq, Repr

/-- A property of a methodmap. -/
structure Property where
  name : String
  type : String
  deriving DecidableEq, Repr

/-- What a declaration declares besides its name. -/
inductive Shape where
  | function (kind : FunctionKind) (returnType : String) (params : List Param)
  | methodmap (inherits : Option String) (methods : List Method) (properties : List Property)
  | typedef (returnType : String) (params : List Param)
  deriving DecidableEq, Repr

/-- A declaration with its documentation. -/
structure Entry where
  name : String
  shape : Shape
  comment : String
  tags : Doc.Tags
  /-- The header as written, on one line. -/
  fullDeclaration : String
  /-- The display name of the file it stands in. -/
  sourceFile : String
  deriving DecidableEq, Repr

namespace Entry

/-- The word an entry is filed under: the keyword of a function, or the shape. -/
def typeName (e : Entry) : String :=
  match e.shape with
  | .function kind .. => kind.keyword
  | .methodmap .. => "methodmap"
  | .typedef .. => "typedef"

/-- The declared parameters; a methodmap has none of its own. -/
def params (e : Entry) : List Param :=
  match e.shape with
  | .function _ _ params => params
  | .methodmap .. => []
  | .typedef _ params => params

/-- Whether the entry is a methodmap. -/
def isMethodmap (e : Entry) : Bool :=
  match e.shape with
  | .methodmap .. => true
  | _ => false

end Entry

end PawnApi
