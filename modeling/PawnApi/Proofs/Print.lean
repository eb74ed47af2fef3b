/-
  PawnApi.Proofs.Print

  Documented declarations and how they are printed.

  The types here hold declarations before they are written: each carries the proofs that
  its words, defaults, bodies and lines of prose may stand where they are printed. `text`
  prints them, and `entry` says which entry a printed declaration stands for, without
  reading it back. That reading gives these entries is proved in the modules behind this
  one.
-/
import PawnApi.Proofs.Spelling

namespace PawnApi.Param

open PawnApi.Source

/-- How many brackets and angle pairs are open after some tokens. -/
def nesting (n : Nesting) (afterIdent : Bool) : List Token → Nesting
  | [] => n
  | t :: ts => nesting (n.after afterIdent t ts) (t.kind = .ident) ts

end PawnApi.Param

namespace PawnApi.Print

open PawnApi.Source

/-! ## Words and expressions -/

/-- The words that mean something where a name is looked for. -/
def reserved : List String :=
  ["native", "stock", "forward", "public", "static", "const", "property"]

/-- A name: a letter or underscore, then letters, digits and underscores. -/
structure Ident where
  text : List Char
  isWord : IsWord text := by decide
  isLetter_head : ∀ c ∈ text.head?, isLetter c = true := by decide
  not_reserved : String.ofList text ∉ reserved := by decide

/-- A name as a string. -/
def Ident.name (i : Ident) : String :=
  String.ofList i.text

/-- The text of a default: on one line, without comments, from a token through a token,
    with everything closed that it opens, and without a comma outside brackets. -/
structure Expr where
  text : List Char
  ne_nil : text ≠ []
  oneLine : '\n' ∉ text
  noReturn : '\r' ∉ text
  commentFree : CommentFree text
  isBlank_head : ∀ c ∈ text.head?, Text.isBlank c = false
  isBlank_last : ∀ c ∈ text.getLast?, Text.isBlank c = false
  isOutside : (scan text).mode.isOutside = true
  parentheses : Source.Balanced '(' ')' (tokens text)
  braces : Source.Balanced '{' '}' (tokens text)
  nesting_eq : Param.nesting {} false (tokens text) = {}
  cut_eq : Param.cut {} false (tokens text) = (tokens text, [])

/-! ## Types and parameters -/

/-- A type: a name and a number of empty dimensions. -/
structure TypeName where
  ident : Ident
  dims : Nat

def TypeName.text (t : TypeName) : List Char :=
  t.ident.text ++ (List.replicate t.dims ['[', ']']).flatten

def TypeName.name (t : TypeName) : String :=
  String.ofList t.text

/-- The size of a dimension: a word or nothing. -/
structure Size where
  chars : List Char
  isIdentChar_of_mem : ∀ c ∈ chars, isIdentChar c = true

def Size.text (s : Size) : List Char :=
  '[' :: (s.chars ++ [']'])

/-- A default, if there is one. -/
def defaultText : Option Expr → List Char
  | none => []
  | some e => " = ".toList ++ e.text

/-- A parameter before it is written. -/
structure ParamDecl where
  isConst : Bool
  type : TypeName
  byReference : Bool
  ident : Ident
  sizes : List Size
  default : Option Expr

namespace ParamDecl

def text (p : ParamDecl) : List Char :=
  (if p.isConst then "const ".toList else []) ++ p.type.text ++
    (if p.byReference then " &".toList else [' ']) ++ p.ident.text ++
    p.sizes.flatMap Size.text ++ defaultText p.default

/-- The parameter that is declared, with the documentation of its name. -/
def param (tags : Doc.Tags) (p : ParamDecl) : Param where
  name := p.ident.name
  type := p.type.name
  default := p.default.map fun e => String.ofList e.text
  description := (tags.paramDescription? p.ident.name).getD ""

end ParamDecl

/-- Parameters between commas. -/
def paramsText (ps : List ParamDecl) : List Char :=
  List.intercalate [',', ' '] (ps.map ParamDecl.text)

/-! ## Functions, methods and constructors -/

/-- A keyword behind the first one. -/
inductive Qualifier where
  | kind (k : FunctionKind)
  | static

namespace Qualifier

def text : Qualifier → List Char
  | kind k => k.keyword.toList
  | static => "static".toList

def kind? : Qualifier → Option FunctionKind
  | kind k => some k
  | static => none

end Qualifier

/-- What may stand between braces. -/
structure Body where
  text : List Char
  closed : ClosedBody text

/-- The semicolon of a declaration without a body. -/
def semicolon : Option Body → List Char
  | none => [';']
  | some _ => []

/-- A body between braces, if there is one. -/
def bodyText : Option Body → List Char
  | none => []
  | some b => ' ' :: '{' :: (b.text ++ ['}'])

/-- A result type, if there is one. -/
def resultText : Option TypeName → List Char
  | none => []
  | some t => ' ' :: t.text

/-- A function, method or constructor before it is written. A constructor has no result
    type. -/
structure Callable where
  first : FunctionKind
  more : List Qualifier
  result : Option TypeName
  ident : Ident
  params : List ParamDecl
  body : Option Body

namespace Callable

/-- The header, with the semicolon if that is how it ends. -/
def header (f : Callable) : List Char :=
  f.first.keyword.toList ++ f.more.flatMap (fun q => ' ' :: q.text) ++ resultText f.result ++
    ' ' :: f.ident.text ++ '(' :: paramsText f.params ++ ')' :: semicolon f.body

def text (f : Callable) : List Char :=
  f.header ++ bodyText f.body

/-- The last keyword that names a kind decides. -/
def kind (f : Callable) : FunctionKind :=
  (f.more.filterMap Qualifier.kind?).getLastD f.first

/-- A constructor returns its own type. -/
def returnType (f : Callable) : String :=
  match f.result with
  | none => f.ident.name
  | some t => t.name

/-- The method that is declared. Its parameters have no documentation. -/
def method (f : Callable) : Method where
  name := f.ident.name
  kind := f.kind
  returnType := f.returnType
  params := f.params.map (ParamDecl.param {})
  fullDeclaration := String.ofList f.header

end Callable

/-! ## Methodmaps and typedefs -/

/-- A member of a methodmap before it is written. -/
inductive MemberDecl where
  | callable (f : Callable)
  | property (type : TypeName) (ident : Ident) (body : Option Body)

def propertyText (type : TypeName) (ident : Ident) (body : Option Body) : List Char :=
  "public property ".toList ++ type.text ++ ' ' :: ident.text ++ semicolon body ++ bodyText body

namespace MemberDecl

def text : MemberDecl → List Char
  | callable f => f.text
  | property type ident body => propertyText type ident body

def method? : MemberDecl → Option Method
  | callable f => some f.method
  | property .. => none

def property? : MemberDecl → Option Property
  | callable _ => none
  | property type ident _ => some ⟨ident.name, type.name⟩

end MemberDecl

/-- A methodmap before it is written. -/
structure MethodmapDecl where
  ident : Ident
  parent : Option Ident
  members : List MemberDecl

/-- The parent of a methodmap, if it has one. -/
def parentText : Option Ident → List Char
  | none => []
  | some i => " < ".toList ++ i.text

namespace MethodmapDecl

def header (m : MethodmapDecl) : List Char :=
  "methodmap ".toList ++ m.ident.text ++ parentText m.parent

/-- The members, each on lines of its own. -/
def interior (m : MethodmapDecl) : List Char :=
  m.members.flatMap (fun d => "\n    ".toList ++ d.text) ++ ['\n']

def text (m : MethodmapDecl) : List Char :=
  m.header ++ ' ' :: '{' :: (m.interior ++ ['}'])

end MethodmapDecl

/-- A typedef before it is written. -/
structure TypedefDecl where
  ident : Ident
  result : TypeName
  params : List ParamDecl

def TypedefDecl.text (t : TypedefDecl) : List Char :=
  "typedef ".toList ++ t.ident.text ++ " = function ".toList ++ t.result.text ++ " (".toList ++
    paramsText t.params ++ ");".toList

/-- A declaration before it is written. Outside a methodmap a function has a result. -/
inductive Decl where
  | function (f : Callable) (h : f.result.isSome = true)
  | methodmap (m : MethodmapDecl)
  | typedef (t : TypedefDecl)

namespace Decl

def text : Decl → List Char
  | function f _ => f.text
  | methodmap m => m.text
  | typedef t => t.text

/-- What is declared, with the documentation of the parameters. -/
def found (tags : Doc.Tags) : Decl → Declaration.Found
  | function f _ =>
    ⟨f.ident.name, .function f.kind f.returnType (f.params.map (ParamDecl.param tags)),
      String.ofList f.header⟩
  | methodmap m =>
    ⟨m.ident.name, .methodmap (m.parent.map Ident.name) (m.members.filterMap MemberDecl.method?)
      (m.members.filterMap MemberDecl.property?), String.ofList m.header⟩
  | typedef t =>
    ⟨t.ident.name, .typedef t.result.name (t.params.map (ParamDecl.param tags)),
      String.ofList t.text⟩

end Decl

/-! ## Documentation -/

/-- Whether a text may stand on a line of a documentation block. -/
structure IsProse (l : List Char) : Prop where
  trim_eq : Text.trim l = l
  oneLine : '\n' ∉ l
  noReturn : '\r' ∉ l
  noClose : ¬ ['*', '/'] <:+: l

/-- A tag before it is written. -/
structure TagText where
  name : List Char
  content : List Char
  name_ne_nil : name ≠ []
  isWordChar_of_mem : ∀ c ∈ name, Text.isWordChar c = true
  isProse : IsProse content

namespace TagText

def text (t : TagText) : List Char :=
  '@' :: t.name ++ if t.content.isEmpty then [] else ' ' :: t.content

/-- The parameter that a tag documents: the word that its content starts with, and what
    follows it. -/
def paramTag? (t : TagText) : Option Doc.ParamTag :=
  let word := t.content.takeWhile Text.isWordChar
  if String.ofList t.name = "param" ∧ word ≠ [] then
    some ⟨String.ofList word, String.ofList (Text.trim (t.content.dropWhile Text.isWordChar))⟩
  else none

end TagText

/-- The contents of the tags with a name, in order. -/
def contents (ts : List TagText) (name : String) : List String :=
  (ts.filter fun t => String.ofList t.name = name).map fun t => String.ofList t.content

/-- What is documented by a list of tags: the contents of each kind, of which the last
    return tag wins. -/
def tagsOf (ts : List TagText) : Doc.Tags where
  param := ts.filterMap TagText.paramTag?
  error := contents ts "error"
  note := contents ts "note"
  returns := (contents ts "return").getLastD ""
  deprecated := contents ts "deprecated"
  see := contents ts "see"
  author := contents ts "author"

/-- A documentation comment before it is written. -/
structure DocText where
  description : List (List Char)
  tags : List TagText
  isProse_of_mem : ∀ l ∈ description, IsProse l
  isTagLine_of_mem : ∀ l ∈ description, Doc.isTagLine l = false
  head_ne_nil : ∀ l ∈ description.head?, l ≠ []
  getLast_ne_nil : ∀ l ∈ description.getLast?, l ≠ []

namespace DocText

/-- The lines of prose: the description, then the tags. -/
def lines (d : DocText) : List (List Char) :=
  d.description ++ d.tags.map TagText.text

/-- The block, with each line behind a star. -/
def block (d : DocText) : List Char :=
  "/**\n".toList ++ d.lines.flatMap (fun l => " * ".toList ++ l ++ ['\n']) ++ " */".toList

def comment (d : DocText) : Doc.Comment where
  description := String.ofList (Text.unlines d.description)
  tags := tagsOf d.tags

end DocText

/-- A documented declaration before it is written. -/
structure Documented where
  doc : DocText
  decl : Decl

namespace Documented

def text (d : Documented) : List Char :=
  d.doc.block ++ '\n' :: d.decl.text ++ ['\n']

/-- The entry that a documented declaration stands for. -/
def entry (file : String) (d : Documented) : Entry :=
  let found := d.decl.found d.doc.comment.tags
  { name := found.name
    shape := found.shape
    comment := d.doc.comment.description
    tags := d.doc.comment.tags
    fullDeclaration := found.written
    sourceFile := file }

end Documented

end PawnApi.Print
