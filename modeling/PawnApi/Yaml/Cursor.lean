/-
  A place in a YAML stream.

  Lines and columns decide what a stream means, and bytes how long a key may be, so a
  cursor counts all three. Line ends are brought to one form beforehand: the line and
  paragraph separators of Unicode end a line too but keep their own form, because folded
  text shows them.
-/
import PawnApi.Text.Lines

namespace PawnApi.Yaml

/-! ## Characters -/

/-- The characters that a stream may hold. -/
def isPrintable (c : Char) : Bool :=
  c = '\t' || c = '\n' || c = '\r' || (0x20 ≤ c.toNat && c.toNat ≤ 0x7E) || c.toNat == 0x85 ||
    (0xA0 ≤ c.toNat && c.toNat ≤ 0xFFFD) || 0x10000 ≤ c.toNat

/-- The characters that end a line. -/
def isBreak (c : Char) : Bool :=
  c = '\n' || c.toNat == 0x2028 || c.toNat == 0x2029

def isBlank (c : Char) : Bool :=
  c = ' ' || c = '\t'

/-- The characters of directive names, anchors and tag handles. -/
def isNameChar (c : Char) : Bool :=
  c.isAlphanum || c = '_' || c = '-'

/-- Whether a place is blank, at a line end, or past the end of the stream. -/
def isSeparator : Option Char → Bool
  | none => true
  | some c => isBlank c || isBreak c

/-- Whether a place is at a line end or past the end of the stream. -/
def isLineEnd : Option Char → Bool
  | none => true
  | some c => isBreak c

/-- A stream with every line end that is not shown by folded text in the form `\n`. -/
def prepare (s : List Char) : List Char :=
  (Text.lfEndings s).map fun c => if c.toNat == 0x85 then '\n' else c

/-- The number of bytes that spell a text. -/
def byteCount (s : List Char) : Nat :=
  s.foldl (fun n c => n + c.utf8Size) 0

/-! ## Cursors -/

/-- What is left of a stream, and where that starts. -/
structure Cursor where
  rest : List Char
  line : Nat := 0
  /-- The number of characters before it on its line. -/
  column : Nat := 0
  /-- The number of bytes before it in the stream. -/
  offset : Nat := 0
  deriving DecidableEq, Repr

namespace Cursor

/-- The next character. -/
def peek (c : Cursor) : Option Char :=
  c.rest.head?

/-- The character after the next `n`. -/
def ahead (c : Cursor) (n : Nat) : Option Char :=
  c.rest[n]?

/-- Moves `n` characters on, on the same line. -/
def advance (c : Cursor) (n : Nat) : Cursor :=
  { c with
    rest := c.rest.drop n
    column := c.column + n
    offset := c.offset + byteCount (c.rest.take n) }

/-- Moves past a line end. -/
def nextLine (c : Cursor) : Cursor :=
  ⟨c.rest.drop 1, c.line + 1, 0, c.offset + byteCount (c.rest.take 1)⟩

/-- Moves to where the stream continues with `rest`, on the same line. -/
def moveTo (c : Cursor) (rest : List Char) : Cursor :=
  c.advance (c.rest.length - rest.length)

/-- Moves past the characters of a class. -/
def skipWhile (p : Char → Bool) (c : Cursor) : Cursor :=
  c.advance (c.rest.takeWhile p).length

/-- Moves past blanks. -/
def skipBlanks (c : Cursor) : Cursor :=
  c.skipWhile isBlank

/-- Moves past a comment, up to the line end. -/
def skipComment (c : Cursor) : Cursor :=
  if c.peek = some '#' then c.skipWhile (!isBreak ·) else c

/-- Moves past a line end, if there is one. -/
def skipLineEnd (c : Cursor) : Cursor :=
  if c.peek.any isBreak then c.nextLine else c

/-- Whether a line starts here with the three characters of a document marker. -/
def atMarker (c : Cursor) (mark : Char) : Bool :=
  c.column == 0 && [mark, mark, mark].isPrefixOf c.rest && isSeparator (c.ahead 3)

/-- Whether a document marker stands here. -/
def atDocumentMarker (c : Cursor) : Bool :=
  c.atMarker '-' || c.atMarker '.'

theorem length_advance_le (c : Cursor) (n : Nat) : (c.advance n).rest.length ≤ c.rest.length := by
  simp [advance]

theorem length_skipWhile_le (p : Char → Bool) (c : Cursor) :
    (c.skipWhile p).rest.length ≤ c.rest.length :=
  length_advance_le c _

theorem length_nextLine_le (c : Cursor) : c.nextLine.rest.length ≤ c.rest.length := by
  simp [nextLine]

/-- Moving past a line and its end moves on, unless the stream is at its end. -/
theorem length_skipLine_lt (c : Cursor) (h : c.rest ≠ []) :
    (c.advance (c.rest.takeWhile (!isBreak ·)).length).skipLineEnd.rest.length <
      c.rest.length := by
  obtain ⟨x, r, hr⟩ := List.exists_cons_of_ne_nil h
  by_cases hx : isBreak x = true
  · simp [skipLineEnd, advance, peek, nextLine, hr, hx]
  · have hle : (c.advance (c.rest.takeWhile (!isBreak ·)).length).skipLineEnd.rest.length ≤
        (c.advance (c.rest.takeWhile (!isBreak ·)).length).rest.length := by
      unfold skipLineEnd
      split
      · exact length_nextLine_le _
      · exact Nat.le_refl _
    refine Nat.lt_of_le_of_lt hle ?_
    simp only [advance, hr, List.length_drop, List.takeWhile_cons, hx, Bool.not_false, if_true,
      List.length_cons]
    omega

theorem length_skipComment_le (c : Cursor) : c.skipComment.rest.length ≤ c.rest.length := by
  unfold skipComment
  split
  · exact length_skipWhile_le _ c
  · exact Nat.le_refl _

end Cursor

/-- The byte order mark, which may start a line. -/
def byteOrderMark : Char :=
  '\ufeff'

/-- Moves past the blanks before a token. Tabs do not count where a key may start. -/
def skipIndent (tabs : Bool) (c : Cursor) : Cursor :=
  let c := if c.column = 0 ∧ c.peek = some byteOrderMark then c.advance 1 else c
  c.skipWhile fun x => x = ' ' || (tabs && x = '\t')

theorem length_skipIndent_le (tabs : Bool) (c : Cursor) :
    (skipIndent tabs c).rest.length ≤ c.rest.length := by
  unfold skipIndent
  refine Nat.le_trans (Cursor.length_skipWhile_le _ _) ?_
  split
  · exact Cursor.length_advance_le c 1
  · exact Nat.le_refl _

/-- Moves to the next token, past blanks, comments and line ends. In block context a line
    end makes a key possible again. -/
def toToken (inFlow keyAllowed : Bool) (c : Cursor) : Cursor × Bool :=
  let d := (skipIndent (inFlow || !keyAllowed) c).skipComment
  match _h : d.rest with
  | x :: _ => if isBreak x then toToken inFlow (keyAllowed || !inFlow) d.nextLine else (d, keyAllowed)
  | [] => (d, keyAllowed)
termination_by c.rest.length
decreasing_by
  have h₁ := length_skipIndent_le (inFlow || !keyAllowed) c
  have h₂ := Cursor.length_skipComment_le (skipIndent (inFlow || !keyAllowed) c)
  have h₃ := congrArg List.length _h
  simp only [d, List.length_cons] at h₃
  simp only [Cursor.nextLine, List.length_drop]
  omega

end PawnApi.Yaml
