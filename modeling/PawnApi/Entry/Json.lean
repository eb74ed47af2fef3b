/-
  The inventory as JSON.

  Each entry is an object that starts with the word it is filed under. The four common
  tags are always there; the rarer ones only if they are used.
-/
import PawnApi.Entry.Basic
import PawnApi.Json.Value

namespace PawnApi

/-- A list of strings as an array. -/
def Json.strings (ss : List String) : Json :=
  .arr (ss.map .str)

/-- A string or null. -/
def Json.optional : Option String → Json
  | some s => .str s
  | none => .null

/-- A field that is left out when its list is empty. -/
def Json.unlessEmpty (name : String) (ss : List String) : List (String × Json) :=
  if ss.isEmpty then [] else [(name, Json.strings ss)]

def Doc.ParamTag.toJson (p : Doc.ParamTag) : Json :=
  .obj [("name", .str p.name), ("description", .str p.description)]

def Doc.Tags.toJson (t : Doc.Tags) : Json :=
  .obj ([("param", .arr (t.param.map Doc.ParamTag.toJson)), ("error", Json.strings t.error),
      ("note", Json.strings t.note), ("return", .str t.returns)] ++
    Json.unlessEmpty "deprecated" t.deprecated ++ Json.unlessEmpty "see" t.see ++
    Json.unlessEmpty "author" t.author)

def Param.toJson (p : Param) : Json :=
  .obj [("name", .str p.name), ("type", .str p.type), ("default", Json.optional p.default),
    ("description", .str p.description)]

def Method.toJson (m : Method) : Json :=
  .obj [("name", .str m.name), ("type", .str m.kind.keyword), ("return_type", .str m.returnType),
    ("params", .arr (m.params.map Param.toJson)), ("full_declaration", .str m.fullDeclaration)]

def Property.toJson (p : Property) : Json :=
  .obj [("name", .str p.name), ("type", .str p.type)]

namespace Entry

/-- The fields that every entry ends with. -/
def tailFields (e : Entry) : List (String × Json) :=
  [("full_declaration", .str e.fullDeclaration), ("source_file", .str e.sourceFile)]

/-- The fields of the documentation. -/
def docFields (e : Entry) : List (String × Json) :=
  [("comment", .str e.comment), ("tags", e.tags.toJson)]

def toJson (e : Entry) : Json :=
  let head := [("type", Json.str e.typeName), ("name", Json.str e.name)]
  let call (returnType : String) (params : List Param) :=
    [("return_type", Json.str returnType), ("params", Json.arr (params.map Param.toJson))]
  match e.shape with
  | .function _ returnType params =>
    .obj (head ++ call returnType params ++ e.docFields ++ e.tailFields)
  | .methodmap inherits methods properties =>
    .obj (head ++ [("inherits", Json.optional inherits)] ++ e.docFields ++
      [("methods", .arr (methods.map Method.toJson)),
        ("properties", .arr (properties.map Property.toJson))] ++ e.tailFields)
  | .typedef returnType params =>
    .obj (head ++ call returnType params ++ e.docFields ++ e.tailFields)

/-- The inventory as a document. -/
def inventory (es : List Entry) : Json :=
  .arr (es.map toJson)

/-- The inventory as text. -/
def renderAll (pretty : Bool) (es : List Entry) : String :=
  (inventory es).render pretty

end Entry

end PawnApi
