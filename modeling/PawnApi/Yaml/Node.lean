/-
  YAML nodes: from tokens to a document.

  A stream holds at most one document. Anchors are numbered by the count of names known
  when they are met, and an alias stands for the node that carries its anchor's number
  last in the document.
-/
import PawnApi.Yaml.Layout

namespace PawnApi.Yaml

/-- A node of a document. `anchor` is the number of the node's anchor, if it has one. -/
inductive Node where
  | scalar (anchor : Option Nat) (tag : Option String) (style : Style) (text : String)
  | sequence (anchor : Option Nat) (items : List Node)
  | mapping (anchor : Option Nat) (entries : List (Node × Node))
  | aliasOf (id : Nat)

/-! ## Anchored nodes -/

namespace Node

mutual

/-- The anchored nodes of a document with their numbers, in the order they start. -/
def anchored : Node → List (Nat × Node)
  | scalar anchor tag style text =>
    anchor.toList.map fun id => (id, .scalar anchor tag style text)
  | sequence anchor items =>
    (anchor.toList.map fun id => (id, .sequence anchor items)) ++ anchoredItems items
  | mapping anchor entries =>
    (anchor.toList.map fun id => (id, .mapping anchor entries)) ++ anchoredEntries entries
  | aliasOf _ => []

def anchoredItems : List Node → List (Nat × Node)
  | [] => []
  | n :: ns => anchored n ++ anchoredItems ns

def anchoredEntries : List (Node × Node) → List (Nat × Node)
  | [] => []
  | e :: es => anchored e.1 ++ anchored e.2 ++ anchoredEntries es

end

/-- What an alias stands for; any other node stands for itself. -/
def resolve (table : List (Nat × Node)) : Node → Node
  | aliasOf id =>
    match table.reverse.find? (·.1 == id) with
    | some p => p.2
    | none => aliasOf id
  | n => n

/-- An absent node. -/
def empty : Node :=
  .scalar none none .plain ""

end Node

/-! ## Reading -/

/-- What has been read of a document. -/
structure Reader where
  tokens : List Token
  /-- The anchor names met so far with their numbers. -/
  anchors : List (String × Nat) := []
  /-- The tag handles and what they stand for. -/
  handles : List (String × String) := []

/-- A step that may fail. -/
abbrev Read := StateT Reader Option

namespace Read

def peek : Read Token := do
  return (← get).tokens.head?.getD .streamEnd

def skip : Read Unit :=
  modify fun r => { r with tokens := r.tokens.drop 1 }

/-- Skips a token if it comes next. -/
def skipIf (t : Token) : Read Bool := do
  if (← peek) = t then
    skip
    return true
  else return false

/-- Numbers an anchor. A name that is used again takes a new number. -/
def number (name : String) : Read Nat :=
  modifyGet fun r =>
    let id := r.anchors.length
    (id, { r with anchors := r.anchors.filter (·.1 ≠ name) ++ [(name, id)] })

/-- The tag that a handle and a suffix stand for. -/
def expand (handle suffix : String) : Read String := do
  if handle.isEmpty then return suffix
  else
    match (← get).handles.find? (·.1 == handle) with
    | some p => return p.2 ++ suffix
    | none => failure

/-- An anchor, if one comes next. -/
def anchor? : Read (Option String) := do
  match (← peek) with
  | .anchor name =>
    skip
    return some name
  | _ => return none

/-- A tag, if one comes next. -/
def tag? : Read (Option (String × String)) := do
  match (← peek) with
  | .tag handle suffix =>
    skip
    return some (handle, suffix)
  | _ => return none

/-- The properties of a node: its anchor's number and its tag, written in either order. -/
def properties : Read (Option Nat × Option String) := do
  let before ← anchor?
  let tag ← tag?
  let name ← if before.isNone && tag.isSome then anchor? else pure before
  let tag ← match tag with
    | some t => some <$> expand t.1 t.2
    | none => pure none
  let id ← match name with
    | some name => some <$> number name
    | none => pure none
  return (id, tag)

/-- A node that has properties only. -/
def absent (anchor : Option Nat) (tag : Option String) : Read Node :=
  if anchor.isNone && tag.isNone then failure else return .scalar anchor tag .plain ""

mutual

/-- Reads a node. `block` says that block collections may start here, `indentless` that
    also a block sequence without indentation of its own may. -/
def node : Nat → (block indentless : Bool) → Read Node
  | 0, _, _ => failure
  | n + 1, block, indentless => do
    if let .aliasOf name := (← peek) then
      skip
      match (← get).anchors.find? (·.1 == name) with
      | some p => return .aliasOf p.2
      | none => failure
    else
      let (anchor, tag) ← properties
      match (← peek) with
      | .scalar style text =>
        skip
        return .scalar anchor tag style text
      | .flowSequence =>
        skip
        return .sequence anchor (← flowItems n true)
      | .flowMapping =>
        skip
        return .mapping anchor (← flowEntries n true)
      | .blockEntry =>
        if indentless then return .sequence anchor (← indentlessItems n)
        else absent anchor tag
      | .blockSequence =>
        if block then
          skip
          return .sequence anchor (← blockItems n)
        else absent anchor tag
      | .blockMapping =>
        if block then
          skip
          return .mapping anchor (← blockEntries n)
        else absent anchor tag
      | _ => absent anchor tag

/-- Reads a node unless one of the tokens `stops` comes next. -/
def nodeUnless : Nat → (stops : List Token) → (block indentless : Bool) → Read Node
  | 0, _, _, _ => failure
  | n + 1, stops, block, indentless => do
    if (← peek) ∈ stops then return Node.empty else node n block indentless

/-- The items of a block sequence. -/
def blockItems : Nat → Read (List Node)
  | 0 => failure
  | n + 1 => do
    if ← skipIf .blockEntry then
      let item ← nodeUnless n [.blockEntry, .blockEnd] true false
      return item :: (← blockItems n)
    else if ← skipIf .blockEnd then return []
    else failure

/-- The items of a block sequence that shares its column with the mapping around it. -/
def indentlessItems : Nat → Read (List Node)
  | 0 => failure
  | n + 1 => do
    if ← skipIf .blockEntry then
      let item ← nodeUnless n [.blockEntry, .key, .value, .blockEnd] true false
      return item :: (← indentlessItems n)
    else return []

/-- The entries of a block mapping. -/
def blockEntries : Nat → Read (List (Node × Node))
  | 0 => failure
  | n + 1 => do
    if ← skipIf .key then
      let k ← nodeUnless n [.key, .value, .blockEnd] true true
      let v ← if ← skipIf .value then nodeUnless n [.key, .value, .blockEnd] true true
        else pure Node.empty
      return (k, v) :: (← blockEntries n)
    else if ← skipIf .blockEnd then return []
    else failure

/-- A value in a flow collection, if a colon comes next. -/
def flowValue : Nat → (close : Token) → Read Node
  | 0, _ => failure
  | n + 1, close => do
    if ← skipIf .value then nodeUnless n [.flowEntry, close] false false else return Node.empty

/-- A pair that stands in a flow sequence without braces. The token after an empty key is
    passed over. -/
def flowPair : Nat → Read Node
  | 0 => failure
  | n + 1 => do
    let k ← if (← peek) ∈ [.value, .flowEntry, .flowSequenceEnd] then do
        skip
        pure Node.empty
      else node n false false
    return .mapping none [(k, ← flowValue n .flowSequenceEnd)]

/-- The items of a flow sequence. -/
def flowItems : Nat → (first : Bool) → Read (List Node)
  | 0, _ => failure
  | n + 1, first => do
    if ← skipIf .flowSequenceEnd then return []
    else
      unless first do
        unless ← skipIf .flowEntry do failure
      if ← skipIf .flowSequenceEnd then return []
      else
        let item ← if ← skipIf .key then flowPair n else node n false false
        return item :: (← flowItems n false)

/-- The entries of a flow mapping. -/
def flowEntries : Nat → (first : Bool) → Read (List (Node × Node))
  | 0, _ => failure
  | n + 1, first => do
    if ← skipIf .flowMappingEnd then return []
    else
      unless first do
        unless ← skipIf .flowEntry do failure
      if ← skipIf .flowMappingEnd then return []
      else
        let entry ← if ← skipIf .key then do
            let k ← nodeUnless n [.value, .flowEntry, .flowMappingEnd] false false
            pure (k, ← flowValue n .flowMappingEnd)
          else do
            let k ← node n false false
            pure (k, Node.empty)
        return entry :: (← flowEntries n false)

end

end Read

/-! ## Documents -/

/-- Whether a token is a directive. -/
def Token.isDirective : Token → Bool
  | version .. | tagDirective .. => true
  | _ => false

/-- Whether a token ends a document or starts another. -/
def Token.endsDocument (t : Token) : Bool :=
  t.isDirective || t ∈ [documentStart, documentEnd, streamEnd]

/-- The handles that every document knows. -/
def defaultHandles : List (String × String) :=
  [("!", "!"), ("!!", "tag:yaml.org,2002:")]

/-- The handles that directives declare, and the tokens after them. The version may be
    given once and must be 1.1 or 1.2, and a handle may be declared once. -/
def directives? (versioned : Bool) (handles : List (String × String)) :
    List Token → Option (List (String × String) × List Token)
  | .version major minor :: ts =>
    if versioned || major ≠ 1 || (minor ≠ 1 && minor ≠ 2) then none
    else directives? true handles ts
  | .tagDirective handle expansion :: ts =>
    if handles.any (·.1 == handle) then none
    else directives? versioned (handles ++ [(handle, expansion)]) ts
  | ts => some (handles, ts)

/-- Reads a node with the given handles. -/
def readNode (handles : List (String × String)) (ts : List Token) : Option (Node × List Token) :=
  ((Read.node (4 * ts.length + 8) true false).run { tokens := ts, handles }).map fun p =>
    (p.1, p.2.tokens)

/-- The document of a token list and the tokens after it. -/
def document? (ts : List Token) : Option (Node × List Token) :=
  if ts.head?.any fun t => t.isDirective || t = .documentStart then do
    let (handles, ts) ← directives? false [] ts
    guard (ts.head? = some .documentStart)
    let ts := ts.drop 1
    if ts.head?.all Token.endsDocument then return (Node.empty, ts)
    else readNode (handles ++ defaultHandles) ts
  else readNode defaultHandles ts

/-- Reads a stream of at most one document: `none` if it is malformed, `some none` if it
    is empty. -/
def parse? (s : List Char) : Option (Option Node) := do
  let ts ← tokens? s
  if ts = [.streamEnd] then return none
  else
    let (n, rest) ← document? ts
    guard (rest.dropWhile (· = .documentEnd) = [.streamEnd])
    return some n

end PawnApi.Yaml
