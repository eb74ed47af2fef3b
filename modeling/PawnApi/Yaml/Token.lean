/-
  YAML tokens, and the readers of those that are neither structure nor text: directives,
  anchors and tags.
-/
import PawnApi.Text.Utf8
import PawnApi.Yaml.Scalar

namespace PawnApi.Yaml

/-- A token. Block collections have start and end tokens that no character stands for. -/
inductive Token where
  | streamEnd
  | version (major minor : Nat)
  | tagDirective (handle expansion : String)
  | documentStart
  | documentEnd
  | blockSequence
  | blockMapping
  | blockEnd
  | flowSequence
  | flowSequenceEnd
  | flowMapping
  | flowMappingEnd
  | flowEntry
  | blockEntry
  | key
  | value
  | aliasOf (name : String)
  | anchor (name : String)
  | tag (handle suffix : String)
  | scalar (style : Style) (text : String)
  deriving DecidableEq, Repr

/-- The text of a class at a cursor, and the place after it. -/
def readWhile (p : Char → Bool) (c : Cursor) : List Char × Cursor :=
  (c.rest.takeWhile p, c.skipWhile p)

/-! ## Tags -/

/-- The characters of a tag besides names and escapes. -/
def isTagChar (verbatim : Bool) (c : Char) : Bool :=
  isNameChar c || ";/?:@&=+$.!~*'()".toList.contains c ||
    (verbatim && (c = ',' || c = '[' || c = ']'))

/-- Two hexadecimal digits after a percent sign. -/
def octet? : List Char → Option UInt8
  | '%' :: a :: b :: _ => do
    let high ← hexValue? a
    let low ← hexValue? b
    return UInt8.ofNat (high * 16 + low)
  | _ => none

/-- How many octets a first octet announces, itself included. -/
def octetCount? (b : UInt8) : Option Nat :=
  if b < 0x80 then some 1
  else if b < 0xC0 then none
  else if b < 0xE0 then some 2
  else if b < 0xF0 then some 3
  else if b < 0xF8 then some 4
  else none

/-- The octets that follow a first one. -/
def octets? : Nat → List Char → Option (List UInt8)
  | 0, _ => some []
  | n + 1, s => do
    let b ← octet? s
    guard (0x80 ≤ b && b < 0xC0)
    let bs ← octets? n (s.drop 3)
    return b :: bs

/-- An escaped character: its octets, each written as a percent sign and two digits, and
    the number of characters that spell them. -/
def tagEscape? (s : List Char) : Option (List Char × Nat) := do
  let b ← octet? s
  let n ← octetCount? b
  let bs ← octets? (n - 1) (s.drop 3)
  return (Text.Utf8.decodeLossy (b :: bs), 3 * n)

/-- Splits off the text of a tag. -/
def tagText? (verbatim : Bool) (s : List Char) : Option (List Char × List Char) :=
  match s with
  | [] => some ([], [])
  | '%' :: r =>
    match tagEscape? ('%' :: r) with
    | none => none
    | some (cs, n) => (tagText? verbatim (r.drop (n - 1))).map fun p => (cs ++ p.1, p.2)
  | c :: r =>
    if isTagChar verbatim c then (tagText? verbatim r).map fun p => (c :: p.1, p.2)
    else some ([], c :: r)
termination_by s.length
decreasing_by
  · simp only [List.length_drop, List.length_cons]
    omega
  · simp

/-- What counts of a tag's text: an escaped NUL ends it. -/
def untilNul (text : List Char) : List Char :=
  text.takeWhile (· ≠ '\x00')

/-- Reads the text of a tag, which may not be empty. -/
def readTagText (verbatim : Bool) (c : Cursor) : Option (List Char × Cursor) := do
  let (text, rest) ← tagText? verbatim c.rest
  guard (rest.length < c.rest.length)
  return (untilNul text, c.moveTo rest)

/-- Reads a tag handle: exclamation marks around a name, the second one optional. -/
def readHandle (c : Cursor) : Option (List Char × Cursor) := do
  guard (c.peek = some '!')
  let (name, d) := readWhile isNameChar (c.advance 1)
  if d.peek = some '!' then return ('!' :: name ++ ['!'], d.advance 1)
  else return ('!' :: name, d)

/-- Whether a handle has its second exclamation mark. -/
def isWholeHandle (handle : List Char) : Bool :=
  1 < handle.length && handle.getLast? == some '!'

/-- Reads a tag, which a blank or, in a flow collection, a comma must follow. -/
def readTag (inFlow : Bool) (c : Cursor) : Option (Token × Cursor) := do
  let (handle, suffix, d) ←
    if c.ahead 1 = some '<' then do
      let (text, d) ← readTagText true (c.advance 2)
      guard (d.peek = some '>')
      pure ([], text, d.advance 1)
    else do
      let (handle, d) ← readHandle c
      if isWholeHandle handle then do
        let (text, d) ← readTagText false d
        pure (handle, text, d)
      else do
        let (text, rest) ← tagText? false d.rest
        let suffix := handle.drop 1 ++ untilNul text
        if suffix.isEmpty then pure ([], ['!'], d.moveTo rest)
        else pure (['!'], suffix, d.moveTo rest)
  guard (isSeparator d.peek || (inFlow && d.peek = some ','))
  return (.tag (String.ofList handle) (String.ofList suffix), d)

/-! ## Anchors -/

/-- Reads the name of an anchor or alias after its first character. -/
def readAnchor (c : Cursor) : Option (String × Cursor) := do
  let (name, d) := readWhile isNameChar (c.advance 1)
  guard (!name.isEmpty && (isSeparator d.peek || d.peek.any "?:,]\x7d%@`".toList.contains))
  return (String.ofList name, d)

/-! ## Directives -/

/-- Reads a number of at most nine digits. -/
def readNumber (c : Cursor) : Option (Nat × Cursor) := do
  let (digits, d) := readWhile Char.isDigit c
  guard (!digits.isEmpty && digits.length ≤ 9)
  return (digits.foldl (fun n x => n * 10 + (x.toNat - 0x30)) 0, d)

/-- Reads a directive and the rest of its line, which may hold a comment only. -/
def readDirective (c : Cursor) : Option (Token × Cursor) := do
  let (name, d) := readWhile isNameChar (c.advance 1)
  guard (!name.isEmpty && isSeparator d.peek)
  let d := d.skipBlanks
  let (token, d) ←
    match String.ofList name with
    | "YAML" => do
      let (major, d) ← readNumber d
      guard (d.peek = some '.')
      let (minor, d) ← readNumber (d.advance 1)
      pure (Token.version major minor, d)
    | "TAG" => do
      let (handle, d) ← readHandle d
      guard (isWholeHandle handle || handle = ['!'])
      guard (d.peek.any isBlank)
      let (text, d) ← readTagText true d.skipBlanks
      guard (isSeparator d.peek)
      pure (Token.tagDirective (String.ofList handle) (String.ofList text), d)
    | _ => none
  let d := d.skipBlanks.skipComment
  guard (isLineEnd d.peek)
  return (token, d.skipLineEnd)

end PawnApi.Yaml
