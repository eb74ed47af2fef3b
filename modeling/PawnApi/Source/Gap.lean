/-
  Gaps: the blanks and comments between two tokens.

  A line comment runs up to its line feed, which stays outside it. A block comment
  runs through the first star-slash after its opening, or to the end of the text.
  `splitGap` cuts the longest gap off the front of a text, and nothing is lost.
-/

namespace PawnApi.Source

/-- The blanks between tokens: space, tab, line feed, form feed and carriage return. -/
def isSpace (c : Char) : Bool :=
  c = ' ' || c = '\t' || c = '\n' || c = '\x0c' || c = '\r'

/-! ## Comments -/

/-- Splits the text after a comment's opening just past the first star-slash. -/
def closeComment? : List Char → Option (List Char × List Char)
  | '*' :: '/' :: r => some (['*', '/'], r)
  | c :: r => (closeComment? r).map fun p => (c :: p.1, p.2)
  | [] => none

theorem append_of_closeComment? {s body rest : List Char}
    (h : closeComment? s = some (body, rest)) : body ++ rest = s := by
  fun_induction closeComment? s generalizing body rest with
  | case1 r =>
    simp only [Option.some.injEq, Prod.mk.injEq] at h
    obtain ⟨rfl, rfl⟩ := h
    rfl
  | case2 c r _ ih =>
    obtain ⟨⟨b, t⟩, hb, hbt⟩ := Option.map_eq_some_iff.1 h
    simp only [Prod.mk.injEq] at hbt
    obtain ⟨rfl, rfl⟩ := hbt
    simp [ih hb]
  | case3 => simp at h

theorem length_le_of_closeComment? {s body rest : List Char}
    (h : closeComment? s = some (body, rest)) : rest.length ≤ s.length := by
  rw [← append_of_closeComment? h]
  simp

/-- Splits a text at its first line feed, which starts the second part. -/
def splitLine (s : List Char) : List Char × List Char :=
  (s.takeWhile (· ≠ '\n'), s.dropWhile (· ≠ '\n'))

theorem append_splitLine (s : List Char) : (splitLine s).1 ++ (splitLine s).2 = s :=
  List.takeWhile_append_dropWhile

theorem length_splitLine_le (s : List Char) : (splitLine s).2.length ≤ s.length := by
  simpa [splitLine] using List.IsSuffix.length_le (List.dropWhile_suffix (· ≠ '\n'))

/-! ## The gap at the front of a text -/

/-- Cuts the longest gap off the front of a text. A block comment that is never closed
    belongs to the gap with all that follows it. -/
def splitGap (s : List Char) : List Char × List Char :=
  match s with
  | '/' :: '/' :: r =>
    let p := splitGap (splitLine r).2
    ('/' :: '/' :: (splitLine r).1 ++ p.1, p.2)
  | '/' :: '*' :: r =>
    match _h : closeComment? r with
    | some (body, after) =>
      let p := splitGap after
      ('/' :: '*' :: body ++ p.1, p.2)
    | none => ('/' :: '*' :: r, [])
  | c :: r =>
    if isSpace c then
      let p := splitGap r
      (c :: p.1, p.2)
    else ([], c :: r)
  | [] => ([], [])
termination_by s.length
decreasing_by
  · have := length_splitLine_le r
    simp only [List.length_cons]
    omega
  · have := length_le_of_closeComment? ‹_›
    simp only [List.length_cons]
    omega
  · simp

/-- A gap and what follows it make up the text. -/
theorem append_splitGap (s : List Char) : (splitGap s).1 ++ (splitGap s).2 = s := by
  fun_induction splitGap s with
  | case1 r p ih =>
    simp only [p, List.cons_append, List.append_assoc]
    rw [ih, append_splitLine]
  | case2 r body after h p ih =>
    simp only [p, List.cons_append, List.append_assoc]
    rw [ih, append_of_closeComment? h]
  | case3 => simp
  | case4 c r _ _ _ p ih =>
    simp only [p, List.cons_append]
    rw [ih]
  | case5 => simp
  | case6 => simp

theorem length_splitGap_le (s : List Char) : (splitGap s).2.length ≤ s.length := by
  have := congrArg List.length (append_splitGap s)
  simp only [List.length_append] at this
  omega

end PawnApi.Source
