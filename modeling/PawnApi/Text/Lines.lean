/-
  Lines and line endings.

  A line feed ends a line. Texts that end their lines with a carriage return, alone
  or before a line feed, are brought to that form first.
-/

namespace PawnApi.Text

/-- Cuts a text at every line feed. The cuts are not part of any line, and a text with
    `n` line feeds has `n + 1` lines. -/
def lines : List Char → List (List Char)
  | [] => [[]]
  | c :: s =>
    if c = '\n' then [] :: lines s
    else
      match lines s with
      | [] => [[c]]
      | l :: ls => (c :: l) :: ls

/-- Joins lines with a line feed between neighbours. -/
def unlines (ls : List (List Char)) : List Char :=
  List.intercalate ['\n'] ls

/-- Writes `\r\n` and lone `\r` line endings as `\n`. -/
def lfEndings : List Char → List Char
  | '\r' :: '\n' :: s => '\n' :: lfEndings s
  | c :: s => (if c = '\r' then '\n' else c) :: lfEndings s
  | [] => []

/-- Puts a text on one line: each line feed becomes a space. -/
def onOneLine (s : List Char) : List Char :=
  s.map fun c => if c = '\n' then ' ' else c

theorem lines_ne_nil (s : List Char) : lines s ≠ [] := by
  cases s with
  | nil => simp [lines]
  | cons c s =>
    rw [lines]
    split
    · simp
    · split <;> simp

@[simp] theorem length_onOneLine (s : List Char) : (onOneLine s).length = s.length := by
  simp [onOneLine]

end PawnApi.Text
