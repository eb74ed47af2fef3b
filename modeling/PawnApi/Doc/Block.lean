/-
  Reading a documentation block.

  The delimiters of the block and the stars in front of each line are decoration. What
  is left is a description, up to the first line that starts with an at sign and a word,
  and then one section per such line. A section's text is its non-empty lines joined by
  single spaces; which tag it belongs to depends on the word.
-/
import PawnApi.Doc.Comment
import PawnApi.Text.Alphanumeric
import PawnApi.Text.Blank
import PawnApi.Text.Lines

namespace PawnApi.Doc

open PawnApi.Text

/-! ## The lines of a block -/

/-- Takes the delimiters off a block, each only if it is there. -/
def stripDelimiters (block : List Char) : List Char :=
  let s := trim block
  let s := if ['/', '*'].isPrefixOf s then s.drop 2 else s
  if ['*', '/'].isSuffixOf s then s.take (s.length - 2) else s

/-- Takes the decoration off a line: blanks at both ends, stars in front, and the blanks
    after them. -/
def cleanLine (line : List Char) : List Char :=
  trim ((trim line).dropWhile (· = '*'))

/-- Drops the empty lines at both ends. -/
def dropEmptyEnds (ls : List (List Char)) : List (List Char) :=
  ((ls.dropWhile List.isEmpty).reverse.dropWhile List.isEmpty).reverse

/-- The lines of a block, without decoration. -/
def blockLines (block : List Char) : List (List Char) :=
  dropEmptyEnds ((lines (stripDelimiters block)).map cleanLine)

/-! ## Sections -/

/-- Whether a line starts a section: an at sign and a word character. -/
def isTagLine : List Char → Bool
  | '@' :: c :: _ => isWordChar c
  | _ => false

/-- A tag as written: the word after the at sign and the lines up to the next tag. -/
structure Section where
  name : List Char
  lines : List (List Char)
  deriving DecidableEq, Repr

/-- The section that a tag line starts, with the lines that follow it. -/
def Section.ofLine (line : List Char) (more : List (List Char)) : Section :=
  let word := line.drop 1
  ⟨word.takeWhile isWordChar, trim (word.dropWhile isWordChar) :: more⟩

/-- Splits lines into those before the first tag and the sections after it. -/
def sections : List (List Char) → List (List Char) × List Section
  | [] => ([], [])
  | l :: ls =>
    let p := sections ls
    if isTagLine l then ([], Section.ofLine l p.1 :: p.2) else (l :: p.1, p.2)

/-- The text of a section on one line. -/
def Section.text (s : Section) : List Char :=
  List.intercalate [' '] ((s.lines.map trim).filter (!·.isEmpty))

/-! ## Tags -/

/-- The parameter tag that a text spells: a word and its description. A text that does
    not start with a word spells none. -/
def ParamTag.ofText? (text : List Char) : Option ParamTag :=
  let name := text.takeWhile isWordChar
  if name.isEmpty then none
  else some ⟨String.ofList name, String.ofList (trim (text.dropWhile isWordChar))⟩

/-- Files a section under its tag. Sections with other names are ignored. -/
def Tags.add (tags : Tags) (s : Section) : Tags :=
  let text := String.ofList s.text
  match String.ofList s.name with
  | "param" => { tags with param := tags.param ++ (ParamTag.ofText? s.text).toList }
  | "return" => { tags with returns := text }
  | "error" => { tags with error := tags.error ++ [text] }
  | "note" => { tags with note := tags.note ++ [text] }
  | "deprecated" => { tags with deprecated := tags.deprecated ++ [text] }
  | "see" => { tags with see := tags.see ++ [text] }
  | "author" => { tags with author := tags.author ++ [text] }
  | _ => tags

/-- Reads a documentation block. Every text is a block: one without tags has none, and
    an empty one has an empty description. -/
def Comment.ofBlock (block : List Char) : Comment :=
  let p := sections (blockLines block)
  ⟨String.ofList (trim (unlines p.1)), p.2.foldl Tags.add {}⟩

end PawnApi.Doc
