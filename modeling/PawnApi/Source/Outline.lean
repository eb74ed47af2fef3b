/-
  The outline of a source text: its top-level documentation blocks, each with the text
  up to the next one.

  A documentation block opens with a slash and two stars, outside every pair of braces.
  Comments and literals hide the braces and blocks inside them. A comment that is never
  closed ends the outline. Nothing is lost: `Outline.text_outlineFrom`.
-/
import PawnApi.Source.Token
import PawnApi.Text.Blank

namespace PawnApi.Source

/-- A documentation block, delimiters included, and the text up to the next block. -/
structure Chunk where
  comment : List Char
  body : List Char
  deriving DecidableEq, Repr

namespace Chunk

/-- The text that the block documents, without leading blanks. -/
def code (c : Chunk) : List Char :=
  Text.trimStart c.body

end Chunk

/-- A source text seen as documentation blocks. -/
structure Outline where
  /-- The text before the first block, which documents nothing. -/
  lead : List Char
  chunks : List Chunk
  /-- What is left out: the comment that is never closed, if there is one. -/
  rest : List Char
  deriving DecidableEq, Repr

namespace Outline

/-- The text that was outlined. -/
def text (o : Outline) : List Char :=
  o.lead ++ (o.chunks.flatMap fun c => c.comment ++ c.body) ++ o.rest

/-- Puts undocumented text in front. -/
def push (s : List Char) (o : Outline) : Outline :=
  { o with lead := s ++ o.lead }

/-- Puts a documentation block in front: the undocumented text becomes its own. -/
def document (comment : List Char) (o : Outline) : Outline :=
  ⟨[], ⟨comment, o.lead⟩ :: o.chunks, o.rest⟩

@[simp] theorem text_push (s : List Char) (o : Outline) : (o.push s).text = s ++ o.text := by
  simp [text, push]

@[simp] theorem text_document (s : List Char) (o : Outline) :
    (o.document s).text = s ++ o.text := by
  simp [text, document]

end Outline

/-- The brace depth after the character `c`. A closing brace with nothing to close is
    ignored. -/
def braceDepth (depth : Nat) (c : Char) : Nat :=
  if c = '{' then depth + 1 else if c = '}' then depth - 1 else depth

/-- The outline of a text that starts inside `depth` pairs of braces. -/
def outlineFrom (depth : Nat) (s : List Char) : Outline :=
  match s with
  | '/' :: '/' :: r => (outlineFrom depth (splitLine r).2).push ('/' :: '/' :: (splitLine r).1)
  | '/' :: '*' :: r =>
    match _h : closeComment? r with
    | some (body, after) =>
      let o := outlineFrom depth after
      let comment := '/' :: '*' :: body
      if depth = 0 ∧ r.head? = some '*' then o.document comment else o.push comment
    | none => ⟨[], [], '/' :: '*' :: r⟩
  | c :: r =>
    if c = '"' ∨ c = '\'' then
      (outlineFrom depth (splitLiteral c r).2).push (c :: (splitLiteral c r).1)
    else (outlineFrom (braceDepth depth c) r).push [c]
  | [] => ⟨[], [], []⟩
termination_by s.length
decreasing_by
  · have := length_splitLine_le r
    simp only [List.length_cons]
    omega
  · have := length_le_of_closeComment? _h
    simp only [List.length_cons]
    omega
  · have := congrArg List.length (append_splitLiteral c r)
    simp only [List.length_append] at this
    simp only [List.length_cons]
    omega
  · simp

/-- The outline of a source text. -/
def outline (s : List Char) : Outline :=
  outlineFrom 0 s

/-- The documentation blocks of a source text. -/
def chunks (s : List Char) : List Chunk :=
  (outline s).chunks

theorem Outline.text_outlineFrom (depth : Nat) (s : List Char) :
    (outlineFrom depth s).text = s := by
  fun_induction outlineFrom depth s with
  | case1 depth r ih =>
    simp only [text_push, ih, List.cons_append]
    rw [append_splitLine]
  | case2 depth r body after h o comment hc ih =>
    simp only [o, comment, text_document, ih, List.cons_append]
    rw [append_of_closeComment? h]
  | case3 depth r body after h o comment hc ih =>
    simp only [o, comment, text_push, ih, List.cons_append]
    rw [append_of_closeComment? h]
  | case4 => simp [text]
  | case5 depth c r _ _ hq ih =>
    simp only [text_push, ih, List.cons_append]
    rw [append_splitLiteral]
  | case6 depth c r _ _ hq ih => simp [ih]
  | case7 => rfl

end PawnApi.Source
