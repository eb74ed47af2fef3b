/-
  The command line.

  Words are read from left to right. A value is only looked at when the word after it
  settles that it is complete: at the next known option, at the next value, or at the end.
  An unknown word, or a value that an option has no use for, is reported before that.
-/

namespace PawnApi

/-- Why the command line does not ask for a scan. -/
inductive UsageError where
  | helpAsked
  | versionAsked
  | missingDirectory
  | unknownWord
  | badValue
  | repeatedOption
  | surplusValue
  deriving DecidableEq, Repr

namespace UsageError

/-- What is printed for a version. -/
def versionText : String :=
  "incscan 0.4.1\n"

/-- Asking for help or the version is no failure. -/
def exitCode : UsageError → Nat
  | helpAsked | versionAsked => 0
  | _ => 2

end UsageError

/-- What a scan is asked to do. -/
structure Arguments where
  includeDir : String
  output : Option String := none
  deriving DecidableEq, Repr

namespace Arguments

/-- A value that is not settled yet. -/
inductive Pending where
  | directory (value : String)
  /-- The output option, with its value if that has been met. -/
  | output (value : Option String)
  deriving DecidableEq, Repr

/-- What has been read of a command line. -/
structure Progress where
  directory : Option String := none
  output : Option String := none
  pending : Option Pending := none
  deriving DecidableEq, Repr

namespace Progress

/-- Takes the value of the output option. -/
def setOutput (s : Progress) (value : String) : Except UsageError Progress :=
  if s.output.isSome then throw .repeatedOption
  else if value.isEmpty then throw .badValue
  else return { s with output := some value, pending := none }

/-- Settles the value that is pending. -/
def settle (s : Progress) : Except UsageError Progress :=
  match s.pending with
  | none => return s
  | some (.directory value) =>
    if value.isEmpty then throw .badValue
    else return { s with directory := some value, pending := none }
  | some (.output none) => throw .badValue
  | some (.output (some value)) => s.setOutput value

/-- Whether the directory has been given. -/
def hasDirectory (s : Progress) : Bool :=
  s.directory.isSome || s.pending matches some (.directory _)

/-- A word that is no option. -/
def positional (s : Progress) (word : String) : Except UsageError Progress := do
  if s.hasDirectory then throw .unknownWord
  else return { ← s.settle with pending := some (.directory word) }

/-- The output option, with the value attached to it if there is one. -/
def outputOption (s : Progress) (attached : Option String) : Except UsageError Progress := do
  let s ← s.settle
  match attached with
  | some value => s.setOutput value
  | none => return { s with pending := some (.output none) }

/-- An option that ends the reading. -/
def stop (s : Progress) (e : UsageError) : Except UsageError Progress := do
  let _ ← s.settle
  throw e

/-- An option with two dashes, given its name and the value attached to it. -/
def long (s : Progress) (name : List Char) (attached : Option (List Char)) :
    Except UsageError Progress :=
  match String.ofList name with
  | "output" => s.outputOption (attached.map String.ofList)
  | "help" => if attached.isSome then throw .surplusValue else s.stop .helpAsked
  | "version" => if attached.isSome then throw .surplusValue else s.stop .versionAsked
  | _ => throw .unknownWord

/-- An option with one dash, given its letter and the text after it. -/
def short (s : Progress) (letter : Char) (rest : List Char) : Except UsageError Progress :=
  match letter with
  | 'o' =>
    match rest with
    | [] => s.outputOption none
    | '=' :: value => s.outputOption (some (String.ofList value))
    | value => s.outputOption (some (String.ofList value))
  | 'h' => s.stop .helpAsked
  | 'V' => s.stop .versionAsked
  | _ => throw .unknownWord

/-- One word, before any double dash. -/
def word (s : Progress) (w : String) : Except UsageError Progress :=
  match w.toList with
  | '-' :: '-' :: r =>
    let name := r.takeWhile (· ≠ '=')
    s.long name (if name.length < r.length then some (r.drop (name.length + 1)) else none)
  | '-' :: letter :: rest => s.short letter rest
  | _ =>
    match s.pending with
    | some (.output none) => return { s with pending := some (.output (some w)) }
    | _ => s.positional w

end Progress

/-- Reads words. After a double dash, all words are values. -/
def readFrom (s : Progress) (onlyValues : Bool) : List String → Except UsageError Progress
  | [] => s.settle
  | w :: ws =>
    if onlyValues then do readFrom (← s.positional w) true ws
    else if w = "--" then readFrom s true ws
    else do readFrom (← s.word w) false ws

/-- Reads a command line. -/
def ofWords (words : List String) : Except UsageError Arguments := do
  let s ← readFrom {} false words
  match s.directory with
  | some dir => return ⟨dir, s.output⟩
  | none => throw .missingDirectory

end Arguments

end PawnApi
