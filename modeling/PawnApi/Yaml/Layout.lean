/-
  The layout of a YAML stream: from characters to tokens.

  In block context, columns open and close collections. Whether some text is a key shows
  only at the colon after it, so the place before every possible key is remembered, and
  the tokens that announce it are put in there later. A possible key must stand on one
  line with its colon and within 1024 bytes of it. Where a key starts at the column
  of the current block, its colon is required.
-/
import PawnApi.Yaml.Token

namespace PawnApi.Yaml

/-- A place where a key may start. -/
structure KeyMark where
  /-- The number of tokens before it. -/
  position : Nat
  line : Nat
  column : Nat
  offset : Nat
  /-- Whether nothing but a key may stand there. -/
  required : Bool
  deriving DecidableEq, Repr

/-- How far a stream has been read. -/
structure Layout where
  cursor : Cursor
  tokens : Array Token := #[]
  /-- The columns of the open block collections, innermost first. -/
  blocks : List Nat := []
  /-- The possible key of the innermost collection. -/
  mark : Option KeyMark := none
  /-- The possible keys around each open flow collection, innermost first. -/
  outerMarks : List (Option KeyMark) := []
  /-- Whether a key may start here. -/
  keyAllowed : Bool := true
  deriving DecidableEq, Repr

namespace Layout

/-- Whether a flow collection is open. -/
def inFlow (s : Layout) : Bool :=
  !s.outerMarks.isEmpty

def push (s : Layout) (t : Token) : Layout :=
  { s with tokens := s.tokens.push t }

def insert (s : Layout) (position : Nat) (t : Token) : Layout :=
  { s with tokens := s.tokens.insertIdxIfInBounds position t }

/-- Emits a token and moves past the `n` characters that spell it. -/
def take (s : Layout) (n : Nat) (t : Token) : Layout :=
  { s.push t with cursor := s.cursor.advance n }

/-! ## Possible keys -/

/-- Whether a mark is too far back for a colon here. -/
def isStale (c : Cursor) (m : KeyMark) : Bool :=
  m.line < c.line || m.offset + 1024 < c.offset

/-- Gives up the innermost mark; fails if it is required. -/
def dropMark (s : Layout) : Option Layout :=
  if s.mark.any KeyMark.required then none else some { s with mark := none }

/-- Gives up the innermost mark if it is too far back. -/
def dropStale (s : Layout) : Option Layout :=
  if s.mark.any (isStale s.cursor) then s.dropMark else some s

/-- Remembers that a key may start here. -/
def saveMark (s : Layout) : Option Layout :=
  if s.keyAllowed then do
    let required := !s.inFlow && s.blocks.head? == some s.cursor.column
    let s ← s.dropMark
    let c := s.cursor
    return { s with mark := some ⟨s.tokens.size, c.line, c.column, c.offset, required⟩ }
  else some s

/-! ## Block collections -/

/-- Opens a block collection at a column, unless one is open there already. Its start
    token goes before the token at `position`. -/
def openBlock (s : Layout) (column position : Nat) (t : Token) : Layout :=
  if s.inFlow then s
  else if s.blocks.head?.all (· < column) then
    { s.insert position t with blocks := column :: s.blocks }
  else s

/-- Closes the block collections to the right of a column; all of them if there is none. -/
def closeBlocks (s : Layout) (column : Option Nat) : Layout :=
  if s.inFlow then s
  else
    let keep := match column with
      | some n => s.blocks.dropWhile (n < ·)
      | none => []
    { s with
      blocks := keep
      tokens := s.tokens ++ Array.replicate (s.blocks.length - keep.length) Token.blockEnd }

/-! ## One token -/

/-- Ends whatever is open before a directive, a document marker or the end of the stream. -/
def closeDocument (s : Layout) : Option Layout := do
  let s ← (s.closeBlocks none).dropMark
  return { s with keyAllowed := false }

/-- The start of a flow collection, which may itself be a key. -/
def flowStart (s : Layout) (t : Token) : Option Layout := do
  let s ← s.saveMark
  return { s with mark := none, outerMarks := s.mark :: s.outerMarks, keyAllowed := true }.take 1 t

/-- The end of a flow collection. -/
def flowEnd (s : Layout) (t : Token) : Option Layout := do
  let s ← s.dropMark
  let s := match s.outerMarks with
    | m :: ms => { s with mark := m, outerMarks := ms }
    | [] => s
  return { s with keyAllowed := false }.take 1 t

/-- An entry of a block sequence. -/
def blockEntry (s : Layout) : Option Layout := do
  guard (s.inFlow || s.keyAllowed)
  let s ← (s.openBlock s.cursor.column s.tokens.size .blockSequence).dropMark
  return { s with keyAllowed := true }.take 1 .blockEntry

/-- A key that is announced. -/
def explicitKey (s : Layout) : Option Layout := do
  guard (s.inFlow || s.keyAllowed)
  let s ← (s.openBlock s.cursor.column s.tokens.size .blockMapping).dropMark
  return { s with keyAllowed := !s.inFlow }.take 1 .key

/-- A colon: what was marked is a key, or else the key was announced or is empty. -/
def value (s : Layout) : Option Layout :=
  match s.mark with
  | some m =>
    let s := (s.insert m.position .key).openBlock m.column m.position .blockMapping
    some ({ s with mark := none, keyAllowed := false }.take 1 .value)
  | none => do
    guard (s.inFlow || s.keyAllowed)
    let s := s.openBlock s.cursor.column s.tokens.size .blockMapping
    return { s with keyAllowed := !s.inFlow }.take 1 .value

/-- An anchor, alias, tag or scalar: it may start a key, and what follows it on the line
    may not. -/
def content (s : Layout) (t : Token) (after : Cursor) (keyAllowed : Bool) : Option Layout := do
  let s ← s.saveMark
  return { s.push t with cursor := after, keyAllowed }

/-- A block scalar. -/
def blockScalar (s : Layout) (style : Style) : Option Layout := do
  let s ← s.dropMark
  let r ← readBlock style s.blocks.head? (s.cursor.advance 1)
  return { s.push (.scalar style (String.ofList r.text)) with cursor := r.after, keyAllowed := true }

/-- A quoted scalar. -/
def quotedScalar (s : Layout) (style : Style) (quote : Char) : Option Layout := do
  let r ← readQuoted quote (s.cursor.advance 1)
  s.content (.scalar style (String.ofList r.text)) r.after false

/-- A plain scalar. After one that ends its line, a key may start. -/
def plainScalar (s : Layout) : Option Layout := do
  let indent := match s.blocks with
    | n :: _ => n + 1
    | [] => 0
  let r ← readPlain s.inFlow indent {} s.cursor
  s.content (.scalar .plain (String.ofList r.text)) r.after r.endsLine

/-- Whether a plain scalar may start with a character, given the one after it. A dash
    may if no blank follows, a question mark or a colon if also no flow collection is
    open. -/
def startsPlain (inFlow : Bool) (c : Char) (next : Option Char) : Bool :=
  if c = '-' then !next.any isBlank
  else if c = '?' || c = ':' then !inFlow && !isSeparator next
  else !(isSeparator (some c) || ",[]\x7b\x7d#&*!|>'\"%@`".toList.contains c)

/-- Reads the token at the cursor. -/
def token (s : Layout) (x : Char) : Option Layout :=
  let c := s.cursor
  let next := c.ahead 1
  if c.column = 0 ∧ x = '%' then do
    let s ← s.closeDocument
    let (t, after) ← readDirective s.cursor
    return { s.push t with cursor := after }
  else if c.atMarker '-' then s.closeDocument.map (·.take 3 .documentStart)
  else if c.atMarker '.' then s.closeDocument.map (·.take 3 .documentEnd)
  else if x = '[' then s.flowStart .flowSequence
  else if x = '{' then s.flowStart .flowMapping
  else if x = ']' then s.flowEnd .flowSequenceEnd
  else if x = '}' then s.flowEnd .flowMappingEnd
  else if x = ',' then s.dropMark.map fun s => { s with keyAllowed := true }.take 1 .flowEntry
  else if x = '-' ∧ isSeparator next then s.blockEntry
  else if x = '?' ∧ (s.inFlow ∨ isSeparator next) then s.explicitKey
  else if x = ':' ∧ (s.inFlow ∨ isSeparator next) then s.value
  else if x = '*' then do
    let (name, after) ← readAnchor c
    s.content (.aliasOf name) after false
  else if x = '&' then do
    let (name, after) ← readAnchor c
    s.content (.anchor name) after false
  else if x = '!' then do
    let (t, after) ← readTag s.inFlow c
    s.content t after false
  else if x = '|' ∧ !s.inFlow then s.blockScalar .literal
  else if x = '>' ∧ !s.inFlow then s.blockScalar .folded
  else if x = '\'' then s.quotedScalar .singleQuoted '\''
  else if x = '"' then s.quotedScalar .doubleQuoted '"'
  else if startsPlain s.inFlow x next then s.plainScalar
  else none

/-- Moves to the next token and settles what its place decides. -/
def approach (s : Layout) : Option Layout := do
  let (cursor, keyAllowed) := toToken s.inFlow s.keyAllowed s.cursor
  let s ← { s with cursor, keyAllowed }.dropStale
  return s.closeBlocks (some cursor.column)

/-- Reads what is left of a stream in at most `fuel` steps. -/
def run : (fuel : Nat) → Layout → Option (Array Token)
  | 0, _ => none
  | fuel + 1, s => do
    let s ← s.approach
    match s.cursor.peek with
    | none => return (← s.closeDocument).tokens.push .streamEnd
    | some x => run fuel (← s.token x)

end Layout

/-- The tokens of a stream; `none` if it is malformed. Every step but the last moves past
    a character, so the length of the stream bounds the number of steps. -/
def tokens? (s : List Char) : Option (List Token) :=
  if s.all isPrintable then
    (Layout.run (s.length + 1) { cursor := { rest := prepare s } }).map Array.toList
  else none

end PawnApi.Yaml
