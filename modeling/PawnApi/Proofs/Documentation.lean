/-
  PawnApi.Proofs.Documentation

  Printed documentation blocks and how they are read back.

  A printed line stands behind a star and holds no star-slash, so a block closes at its
  own end (`DocText.closeComment?_block`). Its lines are those of a decorated comment in
  which each tag has one line of content, so the comment that is read is the one that was
  printed (`DocText.ofBlock_block`).
-/
import PawnApi.Proofs.Decoration
import PawnApi.Proofs.Print

namespace PawnApi.Source

/-! ## Where a block closes -/

theorem closeComment?_cons {c : Char} {s : List Char} (h : c = '*' → s.head? ≠ some '/') :
    closeComment? (c :: s) = (closeComment? s).map fun p => (c :: p.1, p.2) := by
  rw [closeComment?]
  rintro r rfl rfl
  exact h rfl rfl

/-- Whether a comment that reaches `x` is still open behind it. -/
def StaysOpen (x : List Char) : Prop :=
  ∀ y, closeComment? (x ++ y) = (closeComment? y).map fun p => (x ++ p.1, p.2)

namespace StaysOpen

variable {c : Char} {x z : List Char}

theorem nil : StaysOpen [] := by
  intro y
  simp

theorem append (hx : StaysOpen x) (hz : StaysOpen z) : StaysOpen (x ++ z) := by
  intro y
  rw [List.append_assoc, hx, hz, Option.map_map]
  simp [Function.comp_def]

theorem cons (hc : c ≠ '*') (h : StaysOpen x) : StaysOpen (c :: x) := by
  intro y
  rw [List.cons_append, closeComment?_cons fun e => absurd e hc, h, Option.map_map]
  rfl

/-- A star is harmless in front of anything but a slash. -/
theorem star (hc : c ≠ '/') (h : StaysOpen (c :: x)) : StaysOpen ('*' :: c :: x) := by
  intro y
  rw [List.cons_append, closeComment?_cons, h, Option.map_map]
  · rfl
  · rintro - ⟨⟩
    exact hc rfl

theorem flatMap {α : Type} {f : α → List Char} {xs : List α} (h : ∀ a ∈ xs, StaysOpen (f a)) :
    StaysOpen (xs.flatMap f) := by
  induction xs with
  | nil => exact nil
  | cons a xs ih =>
    rw [List.flatMap_cons]
    exact append (h a List.mem_cons_self) (ih fun b hb => h b (List.mem_cons_of_mem a hb))

theorem of_forall_ne (h : ∀ e ∈ x, e ≠ '*') (hz : StaysOpen z) : StaysOpen (x ++ z) := by
  induction x with
  | nil => exact hz
  | cons e x ih =>
    exact cons (h e List.mem_cons_self) (ih fun a ha => h a (List.mem_cons_of_mem e ha))

/-- A text without a star-slash stays open up to a character that is neither. -/
theorem concat (h : ¬ ['*', '/'] <:+: x) (hc : c ≠ '*' ∧ c ≠ '/') : StaysOpen (x ++ [c]) := by
  induction x with
  | nil => exact cons hc.1 nil
  | cons e x ih =>
    have hx : StaysOpen (x ++ [c]) :=
      ih fun hi => h (hi.trans (List.suffix_cons e x).isInfix)
    by_cases he : e = '*'
    · -- Behind the star stands `c` or the next character of `x`; neither is a slash.
      subst he
      cases x with
      | nil => exact star hc.2 hx
      | cons a x =>
        refine star ?_ hx
        rintro rfl
        exact h ⟨[], x, rfl⟩
    · exact cons he hx

end StaysOpen

end PawnApi.Source

namespace PawnApi.Print

open PawnApi.Source PawnApi.Doc

/-! ## Lines of a block -/

/-- Whether a text can be read back from a line of a block. -/
structure IsLine (l : List Char) : Prop where
  trim_eq : Text.trim l = l
  oneLine : '\n' ∉ l
  noReturn : '\r' ∉ l
  staysOpen : StaysOpen (l ++ ['\n'])

theorem IsProse.isLine {l : List Char} (h : IsProse l) : IsLine l :=
  ⟨h.trim_eq, h.oneLine, h.noReturn, .concat h.noClose (by decide)⟩

namespace TagText

/-- What stands behind the name. -/
def tail (t : TagText) : List Char :=
  if t.content.isEmpty then [] else ' ' :: t.content

theorem text_eq (t : TagText) : t.text = '@' :: (t.name ++ t.tail) := rfl

theorem tail_of_nil {t : TagText} (h : t.content = []) : t.tail = [] := by
  rw [tail, h]
  rfl

theorem tail_of_ne_nil {t : TagText} (h : t.content ≠ []) : t.tail = ' ' :: t.content := by
  rw [tail, if_neg (by simpa using h)]

theorem not_mem_text (t : TagText) {e : Char} (he : e ∉ t.content)
    (hw : Text.isWordChar e = false) (hat : e ≠ '@') (hs : e ≠ ' ') : e ∉ t.text := by
  have hname : e ∉ t.name := by
    intro h
    exact Text.ne_of_isWordChar (t.isWordChar_of_mem e h) hw rfl
  have htail : e ∉ t.tail := by
    by_cases h : t.content = []
    · rw [tail_of_nil h]
      exact List.not_mem_nil
    · rw [tail_of_ne_nil h]
      simp [he, hs]
  simp [text_eq, hat, hname, htail]

/-- A tag with all of its content on its first line. -/
def toLines (t : TagText) : TagLines where
  name := t.name
  gap := [' ']
  first := t.content
  more := []
  name_ne_nil := t.name_ne_nil
  isWordChar_of_mem := t.isWordChar_of_mem
  gap_ne_nil := List.cons_ne_nil _ _
  isPad_gap := .space
  trim_first := t.isProse.trim_eq
  oneLine_first := t.isProse.oneLine
  isPlain_of_mem := fun _ hl => absurd hl List.not_mem_nil

theorem bare_toLines (t : TagText) : t.toLines.bare = t.text := rfl

def tag (t : TagText) : Tag :=
  ⟨t.name, t.content⟩

theorem tag_toLines (t : TagText) : t.toLines.tag = t.tag := by
  by_cases h : t.content = []
  · simp [TagLines.tag, toLines, tag, h]
  · simp [TagLines.tag, toLines, tag, h, List.intercalate]

theorem isLine (t : TagText) : IsLine t.text where
  trim_eq := by rw [← t.bare_toLines, t.toLines.trim_bare]
  oneLine := t.not_mem_text t.isProse.oneLine (by decide) (by decide) (by decide)
  noReturn := t.not_mem_text t.isProse.noReturn (by decide) (by decide) (by decide)
  staysOpen := by
    have htail : StaysOpen (t.tail ++ ['\n']) := by
      by_cases h : t.content = []
      · rw [tail_of_nil h]
        exact .cons (by decide) .nil
      · rw [tail_of_ne_nil h]
        exact .cons (by decide) (.concat t.isProse.noClose (by decide))
    have hname : ∀ c ∈ t.name, c ≠ '*' := by
      intro c hc
      exact Text.ne_of_isWordChar (t.isWordChar_of_mem c hc) (by decide)
    rw [text_eq, List.cons_append, List.append_assoc]
    exact .cons (by decide) (.of_forall_ne hname htail)

end TagText

theorem contents_map_tag (ts : List TagText) (name : String) :
    Tag.contents (ts.map TagText.tag) name = contents ts name := by
  rw [Tag.contents, contents, List.filter_map, List.map_map]
  rfl

theorem ofTags_map_tag (ts : List TagText) : Tags.ofTags (ts.map TagText.tag) = tagsOf ts := by
  rw [Tags.ofTags, tagsOf, List.filterMap_map]
  simp only [contents_map_tag]
  rfl

/-! ## Whole blocks -/

/-- A line behind its star. -/
def starred (l : List Char) : List Char :=
  ' ' :: '*' :: ' ' :: l

/-- The margin of a printed line. -/
def starMargin : Margin where
  indent := [' ']
  stars := 1
  space := [' ']
  isPad_indent := .space
  isPad_space := .space
  isPad_trail := .nil

theorem cleanLine_starred {l : List Char} (h : Text.trim l = l) : cleanLine (starred l) = l := by
  have hmargin : starred l = starMargin.around l := by
    simp [starred, starMargin, Margin.around]
  rw [hmargin, starMargin.cleanLine_around fun _ => by decide, h]

namespace DocText

/-- The lines of prose behind their stars. -/
def interior (d : DocText) : List Char :=
  '*' :: '\n' :: ((d.lines.flatMap fun l => starred l ++ ['\n']) ++ [' '])

theorem block_eq (d : DocText) : d.block = '/' :: '*' :: (d.interior ++ ['*', '/']) := by
  have hopen : "/**\n".toList = ['/', '*', '*', '\n'] := by decide
  have hstar : " * ".toList = [' ', '*', ' '] := by decide
  have hclose : " */".toList = [' ', '*', '/'] := by decide
  unfold block interior starred
  rw [hopen, hstar, hclose]
  simp

theorem isLine_of_mem (d : DocText) : ∀ l ∈ d.lines, IsLine l := by
  intro l hl
  rcases List.mem_append.mp hl with hl | hl
  · exact (d.isProse_of_mem l hl).isLine
  · obtain ⟨t, -, rfl⟩ := List.mem_map.mp hl
    exact t.isLine

/-- A block closes at its own end. -/
theorem closeComment?_block (d : DocText) (after : List Char) :
    closeComment? (d.interior ++ '*' :: '/' :: after) = some (d.interior ++ ['*', '/'], after) := by
  have hlines : StaysOpen (d.lines.flatMap fun l => starred l ++ ['\n']) := by
    -- The star of a line stands in front of a space.
    refine .flatMap fun l hl => ?_
    have h : StaysOpen (' ' :: (l ++ ['\n'])) := .cons (by decide) (d.isLine_of_mem l hl).staysOpen
    exact .cons (by decide) (.star (by decide) h)
  have hopen : StaysOpen d.interior :=
    .star (by decide) (.cons (by decide) (hlines.append (.cons (by decide) .nil)))
  rw [hopen]
  rfl

theorem noReturn (d : DocText) : '\r' ∉ d.block := by
  rw [block_eq, interior]
  have hlines : '\r' ∉ d.lines.flatMap fun l => starred l ++ ['\n'] := by
    intro h
    obtain ⟨l, hl, hr⟩ := List.mem_flatMap.mp h
    simp [starred, (d.isLine_of_mem l hl).noReturn] at hr
  simp [hlines]

/-- The lines between the delimiters: a star in front, a space behind. -/
def printedLines (d : DocText) : List (List Char) :=
  ['*'] :: (d.lines.map starred ++ [[' ']])

theorem block_eq_delimited (d : DocText) : d.block = delimited d.printedLines := by
  have hinterior : d.interior = Text.unlines d.printedLines := by
    rw [printedLines, ← List.cons_append, Text.unlines_concat]
    simp [interior, List.flatMap_map]
  rw [block_eq, hinterior, delimited]

theorem map_cleanLine_printedLines (d : DocText) :
    d.printedLines.map cleanLine = [] :: (d.lines ++ [[]]) := by
  have hstarred : (d.lines.map starred).map cleanLine = d.lines := by
    rw [List.map_map]
    refine (List.map_congr_left fun l hl => ?_).trans (List.map_id _)
    exact cleanLine_starred (d.isLine_of_mem l hl).trim_eq
  have hstar : cleanLine ['*'] = [] := by decide
  have hblank : cleanLine [' '] = [] := by decide
  rw [printedLines, List.map_cons, List.map_append, hstarred, List.map_singleton, hstar, hblank]

theorem oneLine_printedLines (d : DocText) : ∀ l ∈ d.printedLines, '\n' ∉ l := by
  intro l hl
  simp only [printedLines, List.mem_cons, List.mem_append, List.mem_map, List.not_mem_nil,
    or_false] at hl
  rcases hl with rfl | ⟨m, hm, rfl⟩ | rfl
  · decide
  · simp [starred, (d.isLine_of_mem m hm).oneLine]
  · decide

/-! ## The comment -/

/-- The comment with its tags on lines of their own. -/
def toLines (d : DocText) : CommentLines where
  description := d.description
  tags := d.tags.map TagText.toLines
  isPlain_of_mem := fun l hl =>
    ⟨(d.isProse_of_mem l hl).trim_eq, (d.isProse_of_mem l hl).oneLine, d.isTagLine_of_mem l hl⟩
  head_ne_nil := d.head_ne_nil
  getLast_ne_nil := d.getLast_ne_nil

theorem bareLines_toLines (d : DocText) : d.toLines.bareLines = d.lines := by
  have htags : (d.tags.map TagText.toLines).flatMap TagLines.bareLines
      = d.tags.map TagText.text := by
    rw [List.flatMap_map, List.map_eq_flatMap]
    rfl
  rw [CommentLines.bareLines, lines, ← htags]
  rfl

theorem comment_toLines (d : DocText) : d.toLines.comment = d.comment := by
  have htags : d.toLines.tags.map TagLines.tag = d.tags.map TagText.tag := by
    rw [toLines, List.map_map]
    exact List.map_congr_left fun t _ => t.tag_toLines
  rw [CommentLines.comment, htags, ofTags_map_tag, comment]
  rfl

/-- The comment that is read from a printed block. -/
theorem ofBlock_block (d : DocText) : Comment.ofBlock d.block = d.comment := by
  rw [d.block_eq_delimited, ← d.comment_toLines]
  refine d.toLines.ofBlock_delimited d.oneLine_printedLines (a := 1) (b := 1) ?_
  rw [d.map_cleanLine_printedLines, d.bareLines_toLines]
  rfl

end DocText

end PawnApi.Print
