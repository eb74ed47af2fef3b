/-
  PawnApi.Proofs.Bytewise.Comments

  A documentation block read by offsets.

  The lines of a block are found without offsets. Cutting starts at a tag line: behind the
  at sign, and again where the word of the tag ends. A parameter tag is cut once more,
  behind the name of the parameter. The place where a word ends is searched for, and what
  is found stands between two characters (`cutWord_eq`).
-/
import PawnApi.Doc.Block
import PawnApi.Proofs.Bytewise.Basic

namespace PawnApi.Bytewise

open PawnApi.Text PawnApi.Source PawnApi.Doc

/-! ## The word in front of a text -/

/-- The number of bytes of the word in front of a text. -/
def wordSize (text : List Char) : Nat :=
  (findChar? (!isWordChar ·) text).getD (bytes text).length

/-- The word in front of a text and what stands behind it. -/
def cutWord (text : List Char) : Checked (List Char × List Char) := do
  let behind ← excerptFrom text (wordSize text)
  let word ← excerpt text 0 (wordSize text)
  return (word, behind)

theorem wordSize_eq (text : List Char) :
    wordSize text = byteSize (text.takeWhile isWordChar) := by
  rw [wordSize, length_bytes, getD_findChar?]
  simp only [Bool.not_not]

theorem cutWord_eq (text : List Char) :
    cutWord text = .ok (text.takeWhile isWordChar, text.dropWhile isWordChar) := by
  have hsplit : text.takeWhile isWordChar ++ text.dropWhile isWordChar = text :=
    List.takeWhile_append_dropWhile
  have hbehind := excerptFrom_append (text.takeWhile isWordChar) (text.dropWhile isWordChar)
  have hword := excerpt_append [] (text.takeWhile isWordChar) (text.dropWhile isWordChar)
  rw [hsplit] at hbehind
  rw [List.nil_append, hsplit, byteSize_nil, Nat.zero_add] at hword
  rw [cutWord, wordSize_eq, hbehind, ok_bind, hword]
  rfl

/-! ## Tags -/

/-- Files a section under its tag. -/
def fileTag (tags : Tags) (s : Section) : Checked Tags := do
  if String.ofList s.name = "param" then
    if wordSize s.text = 0 then
      return tags
    let (name, behind) ← cutWord s.text
    let tag : ParamTag := ⟨String.ofList name, String.ofList (trim behind)⟩
    return { tags with param := tags.param ++ [tag] }
  return tags.add s

theorem fileTag_eq (tags : Tags) (s : Section) : fileTag tags s = .ok (tags.add s) := by
  rw [fileTag]
  by_cases hname : String.ofList s.name = "param"
  · rw [if_pos hname, wordSize_eq, cutWord_eq]
    by_cases hword : s.text.takeWhile isWordChar = []
    · -- without a name in front there is no parameter to file
      have hsize : byteSize (s.text.takeWhile isWordChar) = 0 := by rw [hword]; rfl
      rw [if_pos hsize]
      simp [Tags.add, hname, ParamTag.ofText?, hword, pure_eq_ok]
    · have hsize : byteSize (s.text.takeWhile isWordChar) ≠ 0 :=
        Nat.pos_iff_ne_zero.1 (byteSize_pos hword)
      rw [if_neg hsize]
      simp [Tags.add, hname, ParamTag.ofText?, hword]
  · rw [if_neg hname]
    exact pure_eq_ok (tags.add s)

/-! ## Sections -/

/-- The section that a tag line starts. -/
def startSection (line : List Char) : Checked Section := do
  let rest ← excerptFrom line 1
  let (word, behind) ← cutWord rest
  return ⟨word, [trim behind]⟩

/-- The tags filed so far, and the section that is being read. -/
structure TagState where
  tags : Tags := {}
  current : Option Section := none

/-- Files the section that is being read. -/
def TagState.close (st : TagState) : Checked Tags :=
  match st.current with
  | some s => fileTag st.tags s
  | none => .ok st.tags

/-- A section with more lines. -/
def moreLines (more : List (List Char)) (s : Section) : Section :=
  ⟨s.name, s.lines ++ more⟩

/-- Reads one line: a tag line closes a section and starts the next one, and any other
    line goes to the section that is being read. -/
def lineStep (st : TagState) (line : List Char) : Checked TagState := do
  if isTagLine line then
    let tags ← st.close
    let s ← startSection line
    return ⟨tags, some s⟩
  return { st with current := st.current.map (moreLines [line]) }

/-- Reads a documentation block. -/
def parseComment (block : List Char) : Checked Comment := do
  let ls := blockLines block
  let description := ls.takeWhile (!isTagLine ·)
  let st ← (ls.dropWhile (!isTagLine ·)).foldlM lineStep {}
  let tags ← st.close
  return ⟨String.ofList (trim (unlines description)), tags⟩

theorem startSection_eq {line : List Char} (h : isTagLine line = true) :
    startSection line = .ok (Section.ofLine line []) := by
  obtain ⟨c, rest, rfl⟩ : ∃ c rest, line = '@' :: c :: rest := by
    unfold isTagLine at h
    split at h
    · exact ⟨_, _, rfl⟩
    · cases h
  have hrest : excerptFrom ('@' :: c :: rest) 1 = .ok (c :: rest) :=
    excerptFrom_append ['@'] (c :: rest)
  rw [startSection, hrest, ok_bind, cutWord_eq]
  rfl

theorem close_eq (st : TagState) :
    st.close = .ok (st.current.toList.foldl Tags.add st.tags) := by
  obtain ⟨tags, current⟩ := st
  cases current with
  | none => rfl
  | some s => exact fileTag_eq tags s

/-- The section being read takes the lines up to the next tag line, and the sections
    behind it are filed after it. -/
theorem foldlM_lineStep (ls : List (List Char)) (st : TagState) :
    (ls.foldlM lineStep st >>= TagState.close)
      = .ok (((st.current.map (moreLines (sections ls).1)).toList ++ (sections ls).2).foldl
          Tags.add st.tags) := by
  induction ls generalizing st with
  | nil =>
    rw [List.foldlM_nil]
    show st.close = _
    rw [close_eq, sections, List.append_nil]
    obtain ⟨tags, current⟩ := st
    cases current with
    | none => rfl
    | some s => simp [moreLines]
  | cons l ls ih =>
    rw [List.foldlM_cons, bind_assoc, sections, lineStep]
    cases htag : isTagLine l with
    | true =>
      rw [if_pos rfl, if_pos rfl, close_eq, ok_bind, startSection_eq htag, ok_bind]
      show (ls.foldlM lineStep _ >>= TagState.close) = _
      rw [ih]
      obtain ⟨tags, current⟩ := st
      cases current with
      | none => rfl
      | some s => simp [moreLines, Section.ofLine]
    | false =>
      rw [if_neg Bool.false_ne_true, if_neg Bool.false_ne_true]
      show (ls.foldlM lineStep _ >>= TagState.close) = _
      rw [ih]
      obtain ⟨tags, current⟩ := st
      cases current with
      | none => rfl
      | some s => simp [moreLines]

/-- The description is what stands in front of the first tag line. -/
theorem sections_fst (ls : List (List Char)) :
    (sections ls).1 = ls.takeWhile (!isTagLine ·) := by
  induction ls with
  | nil => rfl
  | cons l ls ih =>
    rw [List.takeWhile_cons, ← ih]
    cases htag : isTagLine l <;> simp [sections, htag]

theorem sections_snd (ls : List (List Char)) :
    (sections (ls.dropWhile (!isTagLine ·))).2 = (sections ls).2 := by
  induction ls with
  | nil => rfl
  | cons l ls ih =>
    rw [List.dropWhile_cons]
    cases htag : isTagLine l with
    | true => rfl
    | false => simpa [sections, htag] using ih

theorem parseComment_eq (block : List Char) :
    parseComment block = .ok (Comment.ofBlock block) := by
  have hfold := foldlM_lineStep ((blockLines block).dropWhile (!isTagLine ·)) {}
  rw [sections_snd] at hfold
  obtain ⟨st, hst, hclose⟩ := bind_eq_ok_iff.1 hfold
  rw [parseComment, hst, ok_bind, hclose, ok_bind, ← sections_fst]
  rfl

end PawnApi.Bytewise
