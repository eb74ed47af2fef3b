/-
  Lint: findings about the entries of an inventory.

  Three checks run one after the other: parameters declared twice, documented parameters
  that are not declared, and entries declared twice. Findings are warnings and change
  nothing.
-/
import PawnApi.Entry.Basic

namespace PawnApi.Lint

/-- What is wrong with an entry. -/
inductive Problem where
  /-- A parameter name occurs again in one declaration. -/
  | repeatedParam (entry param : String)
  /-- A parameter is documented but not declared. -/
  | undeclaredParam (entry param : String)
  /-- A declaration of this type and name stands already in `firstFile`. -/
  | repeatedEntry (type name firstFile : String)
  deriving DecidableEq, Repr

/-- A problem and the file of the entry that has it. -/
structure Finding where
  sourceFile : String
  problem : Problem
  deriving DecidableEq, Repr

namespace Problem

def code : Problem → String
  | repeatedParam .. => "incscan::lint::duplicate-param"
  | undeclaredParam .. => "incscan::lint::unknown-param-doc"
  | repeatedEntry .. => "incscan::lint::duplicate-entry"

def message : Problem → String
  | repeatedParam entry param =>
    "'" ++ entry ++ "' declares parameter '" ++ param ++ "' more than once"
  | undeclaredParam entry param =>
    "'" ++ entry ++ "' documents parameter '" ++ param ++ "' which is not declared"
  | repeatedEntry type name firstFile =>
    type ++ " '" ++ name ++ "' is also declared in " ++ firstFile

def help? : Problem → Option String
  | repeatedParam .. => some "Only the first description is attached to repeated names"
  | _ => none

end Problem

/-- A finding as one line of text. -/
def Finding.display (f : Finding) : String :=
  f.sourceFile ++ ": " ++ f.problem.message

/-! ## The checks -/

/-- The members of a list that occur earlier in it or in `seen`. -/
def repeats (seen : List String) : List String → List String
  | [] => []
  | x :: xs => if x ∈ seen then x :: repeats seen xs else repeats (x :: seen) xs

/-- Parameters declared twice, in every entry. -/
def repeatedParams (es : List Entry) : List Finding :=
  es.flatMap fun e =>
    (repeats [] (e.params.map Param.name)).map fun p => ⟨e.sourceFile, .repeatedParam e.name p⟩

/-- Documented parameters that are not declared. A methodmap has no parameters of its own
    and is skipped. -/
def undeclaredParams (es : List Entry) : List Finding :=
  (es.filter (!·.isMethodmap)).flatMap fun e =>
    ((e.tags.param.map Doc.ParamTag.name).filter fun p => p ∉ e.params.map Param.name).map
      fun p => ⟨e.sourceFile, .undeclaredParam e.name p⟩

/-- Whether two entries have the same type and name. -/
def sameKey (e f : Entry) : Bool :=
  e.typeName = f.typeName && e.name = f.name

/-- Entries whose type and name occur among the earlier ones. -/
def repeatedEntriesFrom (earlier : List Entry) : List Entry → List Finding
  | [] => []
  | e :: es =>
    let later := repeatedEntriesFrom (earlier ++ [e]) es
    match earlier.find? (sameKey e) with
    | some f => ⟨e.sourceFile, .repeatedEntry e.typeName e.name f.sourceFile⟩ :: later
    | none => later

/-- Entries declared twice. -/
def repeatedEntries (es : List Entry) : List Finding :=
  repeatedEntriesFrom [] es

/-- All findings. -/
def findings (es : List Entry) : List Finding :=
  repeatedParams es ++ undeclaredParams es ++ repeatedEntries es

end PawnApi.Lint
