/-
  Reading a manifest from YAML.

  The document is a mapping, empty, or null. Text is taken from any scalar as it stands;
  a list may also be left empty; a switch is one of six plain words. Unknown keys are
  ignored, and a known key may stand once.
-/
import PawnApi.Manifest.Basic
import PawnApi.Yaml.Node

namespace PawnApi.Manifest

open PawnApi.Yaml

/-- The words for null. -/
def isNullWord (s : String) : Bool :=
  s ∈ ["null", "Null", "NULL", "~"]

/-- Whether a node is a plain scalar without text. -/
def isEmptyPlain : Node → Bool
  | .scalar _ _ .plain "" => true
  | _ => false

/-- The text of a scalar. -/
def text? : Node → Option String
  | .scalar _ _ _ text => some text
  | _ => none

/-- Whether a node is there or null; fails on a text that is declared null and is not. Any
    other tag, the bare mark `!` as well, says that the node is there. -/
def isPresent? : Node → Option Bool
  | .scalar _ none .plain text => some (text ≠ "" && !isNullWord text)
  | .scalar _ (some "tag:yaml.org,2002:null") .plain text =>
    if isNullWord text then some false else none
  | _ => some true

/-- A list of texts. -/
def texts? (resolve : Node → Node) (n : Node) : Option (List String) :=
  match resolve n with
  | .sequence _ items => items.mapM fun i => text? (resolve i)
  | n => if isEmptyPlain n then some [] else none

/-- A text that may be null. -/
def optionalText? (n : Node) : Option (Option String) := do
  if ← isPresent? n then some <$> text? n else return none

/-- A switch. A literal scalar counts only if it is declared a switch. -/
def switch? : Node → Option Bool
  | .scalar _ tag style text =>
    if style = .plain || (style = .literal && tag = some "tag:yaml.org,2002:bool") then
      if text ∈ ["true", "True", "TRUE"] then some true
      else if text ∈ ["false", "False", "FALSE"] then some false
      else none
    else none
  | _ => none

/-- Reads one entry of the document. `seen` are the known keys read before. -/
def readEntry (resolve : Node → Node) (seen : List String) (m : Manifest) (key value : Node) :
    Option (List String × Manifest) := do
  let key ← text? (resolve key)
  guard (key ∉ seen)
  match key with
  | "extensions" => return (key :: seen, { m with extensions := ← texts? resolve value })
  | "excludes" => return (key :: seen, { m with excludes := ← texts? resolve value })
  | "output" => return (key :: seen, { m with output := ← optionalText? (resolve value) })
  | "pretty" => return (key :: seen, { m with pretty := ← switch? (resolve value) })
  | _ => return (seen, m)

/-- Reads the entries of the document. -/
def readEntries (resolve : Node → Node) (seen : List String) (m : Manifest) :
    List (Node × Node) → Option Manifest
  | [] => some m
  | e :: es => do
    let (seen, m) ← readEntry resolve seen m e.1 e.2
    readEntries resolve seen m es

/-- Reads a document. -/
def ofNode? (n : Node) : Option Manifest := do
  if ← isPresent? n then
    match n with
    | .mapping _ entries => readEntries (Node.resolve n.anchored) [] {} entries
    | n => if isEmptyPlain n then some {} else none
  else return {}

/-- Reads a manifest; `none` if the text is not one. -/
def ofYaml? (s : List Char) : Option Manifest := do
  match ← Yaml.parse? s with
  | none => return {}
  | some n => ofNode? n

end PawnApi.Manifest
