/-
  JSON documents and their two renderings.

  The inventory needs null, strings, arrays and objects only. Inside a string, the quote
  and the backslash are escaped, and so are the control characters below the space; all
  else stands for itself. The compact rendering has no blanks outside strings. The
  indented one puts each item and field on a line of its own, two spaces deeper than
  what holds it, and keeps an empty array or object on one line.
-/

namespace PawnApi

/-- A JSON document. -/
inductive Json where
  | null
  | str (s : String)
  | arr (items : List Json)
  | obj (fields : List (String × Json))

namespace Json

/-! ## Strings -/

/-- A lower-case hexadecimal digit. -/
def hexDigit (n : Nat) : Char :=
  if n < 10 then Char.ofNat (0x30 + n) else Char.ofNat (0x57 + n)

/-- A character as it stands inside a string. -/
def escape (c : Char) : List Char :=
  if c = '"' then ['\\', '"']
  else if c = '\\' then ['\\', '\\']
  else if c = '\x08' then ['\\', 'b']
  else if c = '\x0c' then ['\\', 'f']
  else if c = '\n' then ['\\', 'n']
  else if c = '\r' then ['\\', 'r']
  else if c = '\t' then ['\\', 't']
  else if c.toNat < 0x20 then
    ['\\', 'u', '0', '0', hexDigit (c.toNat / 16), hexDigit (c.toNat % 16)]
  else [c]

/-- A string between its quotes. -/
def quote (s : List Char) : List Char :=
  '"' :: s.flatMap escape ++ ['"']

/-! ## The compact rendering -/

mutual

/-- The rendering without blanks. -/
def compact : Json → List Char
  | null => ['n', 'u', 'l', 'l']
  | str s => quote s.toList
  | arr items => '[' :: List.intercalate [','] (compactItems items) ++ [']']
  | obj fields => '{' :: List.intercalate [','] (compactFields fields) ++ ['}']

def compactItems : List Json → List (List Char)
  | [] => []
  | v :: vs => compact v :: compactItems vs

def compactFields : List (String × Json) → List (List Char)
  | [] => []
  | f :: fs => (quote f.1.toList ++ ':' :: compact f.2) :: compactFields fs

end

/-! ## The indented rendering -/

/-- A new line at the given depth. -/
def newline (depth : Nat) : List Char :=
  '\n' :: List.replicate (2 * depth) ' '

/-- Lays parts out between brackets, one to a line, in a document at the given depth. -/
def block (opn cls : Char) (depth : Nat) (parts : List (List Char)) : List Char :=
  if parts.isEmpty then [opn, cls]
  else
    opn :: newline (depth + 1) ++ List.intercalate (',' :: newline (depth + 1)) parts ++
      newline depth ++ [cls]

mutual

/-- The rendering with one item or field to a line. -/
def indented (depth : Nat) : Json → List Char
  | null => ['n', 'u', 'l', 'l']
  | str s => quote s.toList
  | arr items => block '[' ']' depth (indentedItems depth items)
  | obj fields => block '{' '}' depth (indentedFields depth fields)

def indentedItems (depth : Nat) : List Json → List (List Char)
  | [] => []
  | v :: vs => indented (depth + 1) v :: indentedItems depth vs

def indentedFields (depth : Nat) : List (String × Json) → List (List Char)
  | [] => []
  | f :: fs =>
    (quote f.1.toList ++ ':' :: ' ' :: indented (depth + 1) f.2) :: indentedFields depth fs

end

/-- A document as text. -/
def render (pretty : Bool) (v : Json) : String :=
  String.ofList (if pretty then indented 0 v else compact v)

end Json

end PawnApi
