/-
  Exclude patterns.

  A pattern names a directory whose content is meant, a suffix of the path, or a piece of
  text that the path contains. Paths are compared as text.
-/

namespace PawnApi

/-- What an exclude pattern looks for in a path. -/
inductive Pattern where
  /-- Everything inside this directory, wherever it stands. -/
  | inside (dir : List Char)
  /-- Paths that end with this text. -/
  | ending (text : List Char)
  /-- Paths that contain this text. -/
  | containing (text : List Char)
  deriving DecidableEq, Repr

namespace Pattern

/-- Whether a text occurs in another. -/
def occursIn (w : List Char) : List Char → Bool
  | [] => w.isEmpty
  | c :: s => w.isPrefixOf (c :: s) || occursIn w s

/-- A directory pattern if the text ends in a slash and a star, else a piece of text. -/
def ofDirectory (text : List Char) : Pattern :=
  if ['/', '*'].isSuffixOf text then .inside (text.take (text.length - 2)) else .containing text

/-- Reads a pattern. Two stars and a slash in front are only decoration; one star in front
    means a suffix unless the pattern holds a slash. -/
def ofText (text : List Char) : Pattern :=
  if ['*', '*', '/'].isPrefixOf text then ofDirectory (text.drop 3)
  else if ['*'].isPrefixOf text && !text.contains '/' then .ending (text.drop 1)
  else ofDirectory text

/-- Whether a path is meant by a pattern. -/
def covers : Pattern → List Char → Bool
  | inside dir, path =>
    (dir ++ ['/']).isPrefixOf path || occursIn ('/' :: dir ++ ['/']) path
  | ending text, path => text.isSuffixOf path
  | containing text, path => occursIn text path

end Pattern

end PawnApi
