/-
  PawnApi.Proofs.Decoration

  Documentation blocks, however they are decorated.

  Each line of a block stands inside a margin: blanks, stars and blanks in front of it,
  blanks behind it. Taking the decoration off a line gives the line without its blanks
  (`Margin.cleanLine_around`), so the lines of a block are those that were written, up to
  empty ones at the end (`exists_eq_dropEmptyEnds`). The empty lines that go missing belong
  to the last tag, whose content does not depend on them
  (`exists_sections_append_replicate`), and a fold over the sections files each tag under
  its name (`Tags.foldl_add`). So a comment is read back from every block that it is
  written in (`CommentLines.ofBlock_decorated`).
-/
import Mathlib.Data.List.Basic
import PawnApi.Doc.Block
import PawnApi.Proofs.Trimming

namespace PawnApi.Text

/-! ## Lines -/

theorem lines_append {l : List Char} (hl : '\n' ∉ l) (s : List Char) :
    lines (l ++ '\n' :: s) = l :: lines s := by
  induction l with
  | nil => rw [List.nil_append, lines, if_pos rfl]
  | cons c l ih =>
    rw [List.mem_cons, not_or] at hl
    rw [List.cons_append, lines, if_neg (Ne.symm hl.1), ih hl.2]

theorem lines_eq_singleton {l : List Char} (hl : '\n' ∉ l) : lines l = [l] := by
  induction l with
  | nil => rfl
  | cons c l ih =>
    rw [List.mem_cons, not_or] at hl
    rw [lines, if_neg (Ne.symm hl.1), ih hl.2]

theorem unlines_singleton (l : List Char) : unlines [l] = l := by
  simp [unlines, List.intercalate]

theorem unlines_cons_cons (l m : List Char) (ls : List (List Char)) :
    unlines (l :: m :: ls) = l ++ '\n' :: unlines (m :: ls) := by
  simp [unlines, List.intercalate]

theorem lines_unlines {ls : List (List Char)} (hne : ls ≠ []) (h : ∀ l ∈ ls, '\n' ∉ l) :
    lines (unlines ls) = ls := by
  induction ls with
  | nil => exact absurd rfl hne
  | cons l ls ih =>
    have hl := h l List.mem_cons_self
    cases ls with
    | nil => rw [unlines_singleton, lines_eq_singleton hl]
    | cons m ls =>
      rw [unlines_cons_cons, lines_append hl,
        ih (List.cons_ne_nil m ls) fun n hn => h n (List.mem_cons_of_mem l hn)]

theorem unlines_concat (ls : List (List Char)) (l : List Char) :
    unlines (ls ++ [l]) = ls.flatMap (· ++ ['\n']) ++ l := by
  induction ls with
  | nil => exact unlines_singleton l
  | cons m ls ih =>
    obtain ⟨n, ns, hn⟩ : ∃ n ns, ls ++ [l] = n :: ns :=
      List.exists_cons_of_ne_nil (by simp)
    rw [List.cons_append, hn, unlines_cons_cons, ← hn, ih]
    simp

theorem head?_unlines {l : List Char} (hl : l ≠ []) (ls : List (List Char)) :
    (unlines (l :: ls)).head? = l.head? := by
  obtain ⟨c, r, rfl⟩ := List.exists_cons_of_ne_nil hl
  cases ls with
  | nil => rw [unlines_singleton]
  | cons m ls => rw [unlines_cons_cons]; rfl

theorem getLast?_unlines {ls : List (List Char)} {l : List Char} (h : ls.getLast? = some l)
    (hl : l ≠ []) : (unlines ls).getLast? = l.getLast? := by
  obtain ⟨front, rfl⟩ : ∃ front, ls = front ++ [l] := List.getLast?_eq_some_iff.1 h
  rw [unlines_concat, List.getLast?_append_of_ne_nil _ hl]

/-- Lines that are trimmed, the first and the last not empty, are a trimmed text. -/
theorem trim_unlines {ls : List (List Char)} (h : ∀ l ∈ ls, trim l = l)
    (hhead : ∀ l ∈ ls.head?, l ≠ []) (hlast : ∀ l ∈ ls.getLast?, l ≠ []) :
    trim (unlines ls) = unlines ls := by
  cases ls with
  | nil => rfl
  | cons l ls =>
    obtain ⟨m, hm⟩ : ∃ m, (l :: ls).getLast? = some m :=
      ⟨_, List.getLast?_eq_some_getLast (List.cons_ne_nil l ls)⟩
    refine trim_eq_self_iff.mpr ⟨?_, ?_⟩
    · rw [head?_unlines (hhead l rfl)]
      exact (trim_eq_self_iff.mp (h l List.mem_cons_self)).1
    · rw [getLast?_unlines hm (hlast m hm)]
      exact (trim_eq_self_iff.mp (h m (List.mem_of_getLast? hm))).2

/-! ## Word characters -/

/-- The code points of the blanks. -/
def blanks : List Nat :=
  List.range' 0x9 5 ++ [0x20, 0x85, 0xA0, 0x1680] ++ List.range' 0x2000 11 ++
    [0x2028, 0x2029, 0x202F, 0x205F, 0x3000]

theorem toNat_mem_blanks {c : Char} (h : isBlank c = true) : c.toNat ∈ blanks := by
  simp [isBlank] at h
  simp [blanks, List.mem_range'_1]
  omega

theorem isWordChar_of_mem_blanks : ∀ n ∈ blanks, isWordChar (Char.ofNat n) = false := by
  decide +kernel

theorem isWordChar_of_isBlank {c : Char} (h : isBlank c = true) : isWordChar c = false := by
  have hw := isWordChar_of_mem_blanks _ (toNat_mem_blanks h)
  rwa [Char.ofNat_toNat] at hw

theorem isBlank_of_isWordChar {c : Char} (h : isWordChar c = true) : isBlank c = false := by
  cases hb : isBlank c with
  | false => rfl
  | true =>
    rw [isWordChar_of_isBlank hb] at h
    cases h

theorem ne_of_isWordChar {c e : Char} (h : isWordChar c = true) (he : isWordChar e = false) :
    c ≠ e := by
  rintro rfl
  rw [h] at he
  cases he

end PawnApi.Text

namespace PawnApi.Doc

open PawnApi.Text

/-! ## Margins -/

/-- Blanks that stay on their line. -/
def IsPad (s : List Char) : Prop :=
  ∀ c ∈ s, isBlank c = true ∧ c ≠ '\n'

namespace IsPad

variable {s : List Char}

theorem isBlank (h : IsPad s) : ∀ c ∈ s, isBlank c = true :=
  fun c hc => (h c hc).1

theorem oneLine (h : IsPad s) : '\n' ∉ s :=
  fun hc => (h _ hc).2 rfl

theorem of_all (h : (s.all fun c => Text.isBlank c && c != '\n') = true) : IsPad s := by
  simpa [IsPad] using h

theorem nil : IsPad [] :=
  of_all rfl

theorem space : IsPad [' '] :=
  of_all (by decide)

end IsPad

/-- What stands around a line: blanks, stars and blanks in front, blanks behind. -/
structure Margin where
  indent : List Char := []
  stars : Nat := 0
  space : List Char := []
  trail : List Char := []
  isPad_indent : IsPad indent := by exact .of_all (by decide)
  isPad_space : IsPad space := by exact .of_all (by decide)
  isPad_trail : IsPad trail := by exact .of_all (by decide)

theorem dropWhile_star {s : List Char} (h : s.head? ≠ some '*') : s.dropWhile (· = '*') = s := by
  cases s with
  | nil => rfl
  | cons c s =>
    have hc : c ≠ '*' := by simpa using h
    exact List.dropWhile_cons_of_neg (by simpa using hc)

/-- The decoration of a trimmed line comes off. A line that starts with a star is told from
    its decoration only if that ends with a blank behind a star. -/
theorem cleanLine_of_trim_eq {indent space trail l : List Char} (stars : Nat)
    (hindent : ∀ c ∈ indent, isBlank c = true) (hspace : ∀ c ∈ space, isBlank c = true)
    (htrail : ∀ c ∈ trail, isBlank c = true) (hl : trim l = l)
    (hstar : l.head? = some '*' → 0 < stars ∧ space ≠ []) :
    cleanLine (indent ++ (List.replicate stars '*' ++ (space ++ (l ++ trail)))) = l := by
  have hstarred : isBlank '*' = false := by decide
  have hends : trim (indent ++ (List.replicate stars '*' ++ (space ++ (l ++ trail))))
      = trim (List.replicate stars '*' ++ (space ++ l)) := by
    rw [trim_append_left hindent, ← List.append_assoc space, ← List.append_assoc,
      trim_append_right htrail]
  rw [cleanLine, hends]
  by_cases hnil : l = []
  · -- On an empty line the blanks behind the stars are trailing.
    have hstars : trim (List.replicate stars '*') = List.replicate stars '*' := by
      refine trim_eq_self_iff.mpr ⟨fun c hc => ?_, fun c hc => ?_⟩
      · rw [List.eq_of_mem_replicate (List.mem_of_mem_head? hc), hstarred]
      · rw [List.eq_of_mem_replicate (List.mem_of_getLast? hc), hstarred]
    rw [hnil, List.append_nil, trim_append_right hspace, hstars]
    simp
  · cases stars with
    | zero =>
      have hhead : l.head? ≠ some '*' := fun h => absurd (hstar h).1 (by decide)
      rw [List.replicate_zero, List.nil_append, trim_append_left hspace, hl, dropWhile_star hhead,
        hl]
    | succ n =>
      have htrim : trim (List.replicate (n + 1) '*' ++ (space ++ l))
          = List.replicate (n + 1) '*' ++ (space ++ l) := by
        refine trim_eq_self_iff.mpr ⟨?_, ?_⟩
        · rintro _ ⟨⟩
          exact hstarred
        · rw [← List.append_assoc, List.getLast?_append_of_ne_nil _ hnil]
          exact (trim_eq_self_iff.mp hl).2
      have hhead : (space ++ l).head? ≠ some '*' := by
        cases space with
        | nil => exact fun h => (hstar h).2 rfl
        | cons c space =>
          rintro ⟨⟩
          exact absurd (hspace '*' List.mem_cons_self) (by decide)
      rw [htrim, List.dropWhile_append_of_pos (by simp), dropWhile_star hhead,
        trim_append_left hspace, hl]

namespace Margin

/-- A line in its margin. -/
def around (m : Margin) (l : List Char) : List Char :=
  m.indent ++ (List.replicate m.stars '*' ++ (m.space ++ (l ++ m.trail)))

theorem oneLine (m : Margin) {l : List Char} (h : '\n' ∉ l) : '\n' ∉ m.around l := by
  simp [around, m.isPad_indent.oneLine, m.isPad_space.oneLine, m.isPad_trail.oneLine, h]

theorem cleanLine_around (m : Margin) {l : List Char}
    (hstar : (trim l).head? = some '*' → 0 < m.stars ∧ m.space ≠ []) :
    cleanLine (m.around l) = trim l := by
  -- The blanks of the line itself count as blanks of its margin.
  obtain ⟨front, back, hfront, hback, hl⟩ := exists_eq_append_trim l
  have hspace : ∀ c ∈ m.space ++ front, isBlank c = true :=
    List.forall_mem_append.2 ⟨m.isPad_space.isBlank, hfront⟩
  have htrail : ∀ c ∈ back ++ m.trail, isBlank c = true :=
    List.forall_mem_append.2 ⟨hback, m.isPad_trail.isBlank⟩
  have htrim : trim (trim l) = trim l := by
    conv_rhs => rw [hl, trim_append_left hfront, trim_append_right hback]
  have haround : m.around l = m.indent ++ (List.replicate m.stars '*' ++
      ((m.space ++ front) ++ (trim l ++ (back ++ m.trail)))) := by
    rw [around]
    conv_lhs => rw [hl]
    simp only [List.append_assoc]
  rw [haround]
  refine cleanLine_of_trim_eq m.stars m.isPad_indent.isBlank hspace htrail htrim fun h => ?_
  exact ⟨(hstar h).1, fun hnil => (hstar h).2 (List.append_eq_nil_iff.1 hnil).1⟩

theorem cleanLine_around_nil (m : Margin) : cleanLine (m.around []) = [] :=
  m.cleanLine_around (by simp)

end Margin

/-! ## Blocks -/

/-- Lines between the delimiters of a block. -/
def delimited (ls : List (List Char)) : List Char :=
  '/' :: '*' :: (unlines ls ++ ['*', '/'])

theorem stripDelimiters_delimited (ls : List (List Char)) :
    stripDelimiters (delimited ls) = unlines ls := by
  have hlast : delimited ls = ('/' :: '*' :: (unlines ls ++ ['*'])) ++ ['/'] := by
    simp [delimited]
  have htrim : trim (delimited ls) = delimited ls := by
    refine trim_eq_self_iff.mpr ⟨?_, ?_⟩
    · rintro _ ⟨⟩
      decide
    · rw [hlast, List.getLast?_concat]
      rintro _ ⟨⟩
      decide
  have hclose : ['*', '/'].isSuffixOf (unlines ls ++ ['*', '/']) = true :=
    List.isSuffixOf_iff_suffix.mpr (List.suffix_append ..)
  rw [stripDelimiters, htrim, delimited]
  simp [hclose]

theorem blockLines_delimited {ls : List (List Char)} (h : ∀ l ∈ ls, '\n' ∉ l) :
    blockLines (delimited ls) = dropEmptyEnds (ls.map cleanLine) := by
  rw [blockLines, stripDelimiters_delimited]
  by_cases hne : ls = []
  · -- A block without lines has one line, which is empty.
    rw [hne]
    decide
  · rw [lines_unlines hne h]

theorem dropWhile_isEmpty_replicate_append (n : Nat) (ls : List (List Char)) :
    (List.replicate n [] ++ ls).dropWhile List.isEmpty = ls.dropWhile List.isEmpty :=
  List.dropWhile_append_of_pos (by simp)

/-- Between empty lines and behind a line that is not empty, only empty lines at the end are
    dropped. -/
theorem exists_eq_dropEmptyEnds {ls : List (List Char)} (h : ∀ l ∈ ls.head?, l ≠ []) (a b : Nat) :
    ∃ k, ls = dropEmptyEnds (List.replicate a [] ++ (ls ++ List.replicate b [])) ++
      List.replicate k [] := by
  cases ls with
  | nil =>
    refine ⟨0, ?_⟩
    rw [dropEmptyEnds, dropWhile_isEmpty_replicate_append, List.nil_append,
      ← List.append_nil (List.replicate b []), dropWhile_isEmpty_replicate_append]
    rfl
  | cons l ls =>
    have hfront : (l :: ls ++ List.replicate b []).dropWhile List.isEmpty
        = l :: ls ++ List.replicate b [] := by
      simp [h l rfl]
    have hdropped : dropEmptyEnds (List.replicate a [] ++ (l :: ls ++ List.replicate b []))
        = ((l :: ls).reverse.dropWhile List.isEmpty).reverse := by
      rw [dropEmptyEnds, dropWhile_isEmpty_replicate_append, hfront, List.reverse_append,
        List.reverse_replicate, dropWhile_isEmpty_replicate_append]
    obtain ⟨k, hk⟩ : ∃ k, (l :: ls).reverse.takeWhile List.isEmpty = List.replicate k [] :=
      ⟨_, List.eq_replicate_of_mem fun m hm =>
        List.isEmpty_iff.1 (List.all_eq_true.1 List.all_takeWhile m hm)⟩
    refine ⟨k, ?_⟩
    rw [hdropped, ← List.reverse_replicate, ← hk, ← List.reverse_append,
      List.takeWhile_append_dropWhile, List.reverse_reverse]

/-! ## Tags -/

/-- A tag: its name and its content on one line. -/
structure Tag where
  name : List Char
  content : List Char

def Section.tag (s : Section) : Tag :=
  ⟨s.name, s.text⟩

namespace Tag

/-- The parameter that a tag documents: the longest word that its content starts with, and
    what follows it. -/
def param? (t : Tag) : Option ParamTag :=
  let word := t.content.takeWhile isWordChar
  if String.ofList t.name = "param" ∧ word ≠ [] then
    some ⟨String.ofList word, String.ofList (trim (t.content.dropWhile isWordChar))⟩
  else none

theorem param?_eq (t : Tag) :
    t.param? = if String.ofList t.name = "param" then ParamTag.ofText? t.content else none := by
  by_cases hname : String.ofList t.name = "param"
  · by_cases hword : t.content.takeWhile isWordChar = []
    · simp [param?, ParamTag.ofText?, hname, hword]
    · simp [param?, ParamTag.ofText?, hname, hword]
  · simp [param?, hname]

/-- The contents of the tags with a name, in order. -/
def contents (ts : List Tag) (name : String) : List String :=
  (ts.filter fun t => String.ofList t.name = name).map fun t => String.ofList t.content

theorem contents_concat (ts : List Tag) (t : Tag) (name : String) :
    contents (ts ++ [t]) name = contents ts name ++
      if String.ofList t.name = name then [String.ofList t.content] else [] := by
  rw [contents, List.filter_append, List.map_append, ← contents]
  congr 1
  by_cases h : String.ofList t.name = name
  · simp [h]
  · simp [h]

end Tag

namespace Tags

open Tag

/-- What a list of tags documents: the contents of each kind in order, of which the last
    return tag wins. Tags with other names count for nothing. -/
def ofTags (ts : List Tag) : Tags where
  param := ts.filterMap Tag.param?
  error := contents ts "error"
  note := contents ts "note"
  returns := (contents ts "return").getLastD ""
  deprecated := contents ts "deprecated"
  see := contents ts "see"
  author := contents ts "author"

theorem ofTags_concat (ts : List Tag) (t : Tag) :
    ofTags (ts ++ [t]) =
      let on (name : String) :=
        if String.ofList t.name = name then [String.ofList t.content] else []
      { param := (ofTags ts).param ++ t.param?.toList
        error := (ofTags ts).error ++ on "error"
        note := (ofTags ts).note ++ on "note"
        returns := (on "return").getLastD (ofTags ts).returns
        deprecated := (ofTags ts).deprecated ++ on "deprecated"
        see := (ofTags ts).see ++ on "see"
        author := (ofTags ts).author ++ on "author" } := by
  -- Of the texts behind `@return` only the last counts.
  have hlast : ∀ x y : List String, (x ++ y).getLastD "" = y.getLastD (x.getLastD "") := by
    simp [List.getLastD_eq_getLast?, List.getLast?_append]
  have hparam : [t].filterMap Tag.param? = t.param?.toList := by
    cases h : t.param? with
    | none => simp [h]
    | some p => simp [h]
  simp only [ofTags, contents_concat, List.filterMap_append, hparam, hlast]

/-- Reading one more section files it where it belongs. -/
theorem add_ofTags (ts : List Tag) (s : Section) : (ofTags ts).add s = ofTags (ts ++ [s.tag]) := by
  have hname : s.tag.name = s.name := rfl
  have hcontent : s.tag.content = s.text := rfl
  rw [add, ofTags_concat, param?_eq, hname, hcontent]
  split
  case h_8 h₁ h₂ h₃ h₄ h₅ h₆ h₇ =>
    -- The name is none of the seven, so nothing is filed.
    simp only [if_neg h₁, if_neg h₂, if_neg h₃, if_neg h₄, if_neg h₅, if_neg h₆, if_neg h₇,
      Option.toList_none, List.append_nil]
    rfl
  all_goals
    rename_i h
    simp [h]

theorem foldl_add_ofTags (ss : List Section) (ts : List Tag) :
    ss.foldl add (ofTags ts) = ofTags (ts ++ ss.map Section.tag) := by
  induction ss generalizing ts with
  | nil => rw [List.map_nil, List.append_nil]; rfl
  | cons s ss ih =>
    rw [List.foldl_cons, add_ofTags, ih, List.append_assoc, List.map_cons, List.singleton_append]

theorem foldl_add (ss : List Section) : ss.foldl add {} = ofTags (ss.map Section.tag) :=
  foldl_add_ofTags ss []

end Tags

/-! ## Sections -/

theorem sections_append {ls : List (List Char)} (h : ∀ l ∈ ls, isTagLine l = false)
    (ms : List (List Char)) :
    sections (ls ++ ms) = (ls ++ (sections ms).1, (sections ms).2) := by
  induction ls with
  | nil => rfl
  | cons l ls ih =>
    have hl : isTagLine l = false := h l List.mem_cons_self
    rw [List.cons_append, sections, ih fun m hm => h m (List.mem_cons_of_mem l hm), hl]
    rfl

theorem Section.tag_append_replicate (name : List Char) (ls : List (List Char)) (k : Nat) :
    Section.tag ⟨name, ls ++ List.replicate k []⟩ = Section.tag ⟨name, ls⟩ := by
  simp [Section.tag, Section.text]

/-- Empty lines at the end make no difference to the tags. -/
theorem exists_sections_append_replicate (ls : List (List Char)) (k : Nat) :
    ∃ j, (sections (ls ++ List.replicate k [])).1 = (sections ls).1 ++ List.replicate j [] ∧
      (sections (ls ++ List.replicate k [])).2.map Section.tag
        = (sections ls).2.map Section.tag := by
  induction ls with
  | nil =>
    have hempty : ∀ l ∈ List.replicate k ([] : List Char), isTagLine l = false := by
      intro l hl
      rw [List.eq_of_mem_replicate hl]
      rfl
    have hs := sections_append hempty []
    rw [List.append_nil] at hs
    refine ⟨k, ?_, ?_⟩
    · rw [List.nil_append, hs]
      exact List.append_nil _
    · rw [List.nil_append, hs]
  | cons l ls ih =>
    obtain ⟨j, hfirst, hrest⟩ := ih
    rw [List.cons_append, sections, sections]
    cases hl : isTagLine l with
    | true =>
      -- The empty lines are the last of this tag, or of none.
      refine ⟨0, rfl, ?_⟩
      simp only [if_true, List.map_cons, hrest, hfirst]
      rw [Section.ofLine, ← List.cons_append, Section.tag_append_replicate]
      rfl
    | false =>
      refine ⟨j, ?_, hrest⟩
      exact congrArg (List.cons l) hfirst

/-! ## Comments before they are written -/

/-- Whether a text may stand on a line of prose: trimmed, on one line and not a tag. -/
structure IsPlain (l : List Char) : Prop where
  trim_eq : trim l = l
  oneLine : '\n' ∉ l
  isTagLine_eq : isTagLine l = false

instance (l : List Char) : Decidable (IsPlain l) :=
  decidable_of_iff (trim l = l ∧ '\n' ∉ l ∧ isTagLine l = false)
    ⟨fun h => ⟨h.1, h.2.1, h.2.2⟩, fun h => ⟨h.trim_eq, h.oneLine, h.isTagLine_eq⟩⟩

/-- A tag before it is written: a name, blanks, and its content on one or more lines. -/
structure TagLines where
  name : List Char
  gap : List Char
  first : List Char
  more : List (List Char)
  name_ne_nil : name ≠ []
  isWordChar_of_mem : ∀ c ∈ name, isWordChar c = true
  gap_ne_nil : gap ≠ []
  isPad_gap : IsPad gap
  trim_first : trim first = first
  oneLine_first : '\n' ∉ first
  isPlain_of_mem : ∀ l ∈ more, IsPlain l

namespace TagLines

/-- The line that a tag starts with. -/
def line (t : TagLines) : List Char :=
  '@' :: (t.name ++ (t.gap ++ t.first))

def lines (t : TagLines) : List (List Char) :=
  t.line :: t.more

/-- The tag: its content is the lines that are not empty, between single spaces. -/
def tag (t : TagLines) : Tag :=
  ⟨t.name, List.intercalate [' '] ((t.first :: t.more).filter (!·.isEmpty))⟩

/-- What stands behind the name once the line is trimmed. -/
def tail (t : TagLines) : List Char :=
  if t.first.isEmpty then [] else t.gap ++ t.first

/-- The line that a tag starts with, trimmed. -/
def bare (t : TagLines) : List Char :=
  '@' :: (t.name ++ t.tail)

variable {t : TagLines}

theorem tail_of_nil (h : t.first = []) : t.tail = [] := by
  rw [tail, h]
  rfl

theorem tail_of_ne_nil (h : t.first ≠ []) : t.tail = t.gap ++ t.first := by
  rw [tail, if_neg (by simpa using h)]

theorem trim_bare (t : TagLines) : trim t.bare = t.bare := by
  have hlast : ∀ c ∈ t.bare.getLast?, isBlank c = false := by
    intro c hc
    by_cases h : t.first = []
    · -- The line ends with the name.
      rw [bare, tail_of_nil h, List.append_nil, List.getLast?_cons_of_ne_nil t.name_ne_nil] at hc
      exact isBlank_of_isWordChar (t.isWordChar_of_mem c (List.mem_of_getLast? hc))
    · -- The line ends with the content, which is trimmed.
      rw [bare, tail_of_ne_nil h, ← List.append_assoc, ← List.cons_append,
        List.getLast?_append_of_ne_nil _ h] at hc
      exact (trim_eq_self_iff.mp t.trim_first).2 c hc
  refine trim_eq_self_iff.mpr ⟨?_, hlast⟩
  rintro _ ⟨⟩
  decide

theorem trim_line (t : TagLines) : trim t.line = t.bare := by
  by_cases h : t.first = []
  · have hline : t.line = t.bare ++ t.gap := by
      simp [line, bare, tail_of_nil h, h]
    rw [hline, trim_append_right t.isPad_gap.isBlank, t.trim_bare]
  · have hline : t.line = t.bare := by
      rw [line, bare, tail_of_ne_nil h]
    rw [hline, t.trim_bare]

theorem isTagLine_bare (t : TagLines) : isTagLine t.bare = true := by
  obtain ⟨c, r, h⟩ := List.exists_cons_of_ne_nil t.name_ne_nil
  have hc := t.isWordChar_of_mem c (h ▸ List.mem_cons_self)
  rw [bare, h]
  exact hc

/-- The section that a tag is read as. -/
def toSection (t : TagLines) : Section :=
  ⟨t.name, t.first :: t.more⟩

theorem ofLine_bare (t : TagLines) : Section.ofLine t.bare t.more = t.toSection := by
  -- The name ends with the line or at the first blank of the gap.
  have hstop : t.tail.takeWhile isWordChar = [] ∧ t.tail.dropWhile isWordChar = t.tail := by
    by_cases h : t.first = []
    · rw [tail_of_nil h]
      exact ⟨rfl, rfl⟩
    · obtain ⟨c, r, hgap⟩ := List.exists_cons_of_ne_nil t.gap_ne_nil
      have hc := isWordChar_of_isBlank (t.isPad_gap.isBlank c (hgap ▸ List.mem_cons_self))
      simp [tail_of_ne_nil h, hgap, hc]
  have htail : trim t.tail = t.first := by
    by_cases h : t.first = []
    · rw [tail_of_nil h, h]
      rfl
    · rw [tail_of_ne_nil h, trim_append_left t.isPad_gap.isBlank, t.trim_first]
  have htake : (t.name ++ t.tail).takeWhile isWordChar = t.name := by
    rw [List.takeWhile_append_of_pos t.isWordChar_of_mem, hstop.1, List.append_nil]
  have hdrop : (t.name ++ t.tail).dropWhile isWordChar = t.tail := by
    rw [List.dropWhile_append_of_pos t.isWordChar_of_mem, hstop.2]
  have hword : t.bare.drop 1 = t.name ++ t.tail := rfl
  rw [Section.ofLine, hword, htake, hdrop, htail, toSection]

theorem map_trim_content (t : TagLines) : (t.first :: t.more).map trim = t.first :: t.more := by
  rw [List.map_cons, t.trim_first]
  congr 1
  exact (List.map_congr_left fun l hl => (t.isPlain_of_mem l hl).trim_eq).trans (List.map_id _)

theorem tag_toSection (t : TagLines) : t.toSection.tag = t.tag := by
  rw [Section.tag, Section.text, toSection, map_trim_content]
  rfl

theorem oneLine_line (t : TagLines) : '\n' ∉ t.line := by
  have hname : '\n' ∉ t.name := fun h =>
    ne_of_isWordChar (t.isWordChar_of_mem _ h) (by decide : isWordChar '\n' = false) rfl
  simp [line, hname, t.isPad_gap.oneLine, t.oneLine_first]

/-- The lines of a tag, trimmed. -/
def bareLines (t : TagLines) : List (List Char) :=
  t.bare :: t.more

theorem map_trim_lines (t : TagLines) : t.lines.map trim = t.bareLines := by
  have hmore : t.more.map trim = t.more := (List.cons.inj t.map_trim_content).2
  rw [lines, List.map_cons, t.trim_line, hmore, bareLines]

end TagLines

theorem sections_tags (ts : List TagLines) :
    sections (ts.flatMap TagLines.bareLines) = ([], ts.map TagLines.toSection) := by
  induction ts with
  | nil => rfl
  | cons t ts ih =>
    rw [List.flatMap_cons, TagLines.bareLines, List.cons_append, sections,
      sections_append (fun l hl => (t.isPlain_of_mem l hl).isTagLine_eq), ih,
      if_pos t.isTagLine_bare, List.append_nil, t.ofLine_bare]
    rfl

/-- A documentation comment before it is written. -/
structure CommentLines where
  description : List (List Char)
  tags : List TagLines
  isPlain_of_mem : ∀ l ∈ description, IsPlain l
  head_ne_nil : ∀ l ∈ description.head?, l ≠ []
  getLast_ne_nil : ∀ l ∈ description.getLast?, l ≠ []

namespace CommentLines

/-- The lines as they are written: the description, then the tags. -/
def lines (d : CommentLines) : List (List Char) :=
  d.description ++ d.tags.flatMap TagLines.lines

def comment (d : CommentLines) : Comment where
  description := String.ofList (unlines d.description)
  tags := Tags.ofTags (d.tags.map TagLines.tag)

/-- The lines as they are read, trimmed. -/
def bareLines (d : CommentLines) : List (List Char) :=
  d.description ++ d.tags.flatMap TagLines.bareLines

theorem map_trim_lines (d : CommentLines) : d.lines.map trim = d.bareLines := by
  have hdescription : d.description.map trim = d.description :=
    (List.map_congr_left fun l hl => (d.isPlain_of_mem l hl).trim_eq).trans (List.map_id _)
  rw [lines, List.map_append, hdescription, List.map_flatMap, bareLines]
  simp only [TagLines.map_trim_lines]

theorem oneLine (d : CommentLines) : ∀ l ∈ d.lines, '\n' ∉ l := by
  intro l hl
  rcases List.mem_append.1 hl with hl | hl
  · exact (d.isPlain_of_mem l hl).oneLine
  · obtain ⟨t, -, hl⟩ := List.mem_flatMap.1 hl
    rcases List.mem_cons.1 hl with rfl | hl
    · exact t.oneLine_line
    · exact (t.isPlain_of_mem l hl).oneLine

theorem head?_trim (d : CommentLines) : ∀ l ∈ d.lines, (trim l).head? = l.head? := by
  intro l hl
  rcases List.mem_append.1 hl with hl | hl
  · rw [(d.isPlain_of_mem l hl).trim_eq]
  · obtain ⟨t, -, hl⟩ := List.mem_flatMap.1 hl
    rcases List.mem_cons.1 hl with rfl | hl
    · rw [t.trim_line]
      rfl
    · rw [(t.isPlain_of_mem l hl).trim_eq]

theorem head_bareLines_ne_nil (d : CommentLines) : ∀ l ∈ d.bareLines.head?, l ≠ [] := by
  have h := d.head_ne_nil
  rw [bareLines]
  cases hd : d.description with
  | nil =>
    -- Without prose the first line is a tag, and a tag has at least its at sign.
    cases d.tags with
    | nil => exact fun l hl => nomatch hl
    | cons t ts =>
      rintro _ ⟨⟩
      exact List.cons_ne_nil _ _
  | cons m ls =>
    rw [hd] at h
    exact h

theorem sections_bareLines (d : CommentLines) :
    sections d.bareLines = (d.description, d.tags.map TagLines.toSection) := by
  rw [bareLines, sections_append (fun l hl => (d.isPlain_of_mem l hl).isTagLine_eq),
    sections_tags, List.append_nil]

/-- A comment is read back from every block whose lines are its own once their decoration is
    off, with empty lines above and below. -/
theorem ofBlock_delimited (d : CommentLines) {ls : List (List Char)} (hls : ∀ l ∈ ls, '\n' ∉ l)
    {a b : Nat} (hclean : ls.map cleanLine
      = List.replicate a [] ++ (d.bareLines ++ List.replicate b [])) :
    Comment.ofBlock (delimited ls) = d.comment := by
  obtain ⟨k, hk⟩ := exists_eq_dropEmptyEnds d.head_bareLines_ne_nil a b
  rw [← hclean, ← blockLines_delimited hls] at hk
  obtain ⟨j, hfirst, hrest⟩ := exists_sections_append_replicate (blockLines (delimited ls)) k
  rw [← hk, d.sections_bareLines] at hfirst hrest
  dsimp only at hfirst hrest
  -- The description ends with a line that is not empty, so it has lost none.
  have hj : j = 0 := by
    cases j with
    | zero => rfl
    | succ j =>
      have hlast : [] ∈ d.description.getLast? := by
        rw [hfirst, List.replicate_succ', ← List.append_assoc, List.getLast?_concat]
        rfl
      exact absurd rfl (d.getLast_ne_nil [] hlast)
  have hdescription : (sections (blockLines (delimited ls))).1 = d.description := by
    rw [hfirst, hj, List.replicate_zero, List.append_nil]
  have htags : (sections (blockLines (delimited ls))).2.map Section.tag
      = d.tags.map TagLines.tag := by
    rw [← hrest, List.map_map]
    exact List.map_congr_left fun t _ => t.tag_toSection
  have htrim := trim_unlines (fun l hl => (d.isPlain_of_mem l hl).trim_eq) d.head_ne_nil
    d.getLast_ne_nil
  rw [Comment.ofBlock, hdescription, htrim, Tags.foldl_add, htags, comment]

/-- A block: the lines of a comment, each in a margin, with empty lines in margins above and
    below. -/
def block (d : CommentLines) (above : List Margin) (margin : Nat → Margin) (below : List Margin) :
    List Char :=
  delimited (above.map (·.around []) ++
    (d.lines.mapIdx (fun i l => (margin i).around l) ++ below.map (·.around [])))

theorem map_cleanLine_around_nil (ms : List Margin) :
    (ms.map (·.around [])).map cleanLine = List.replicate ms.length [] := by
  rw [List.map_map, ← List.map_const']
  exact List.map_congr_left fun m _ => m.cleanLine_around_nil

theorem map_cleanLine_around (d : CommentLines) (hstar : ∀ l ∈ d.lines, l.head? ≠ some '*')
    (margin : Nat → Margin) :
    (d.lines.mapIdx fun i l => (margin i).around l).map cleanLine = d.bareLines := by
  rw [← d.map_trim_lines]
  refine List.ext_getElem (by simp) fun i hi _ => ?_
  have hmem := List.getElem_mem (l := d.lines) (by simpa using hi)
  rw [List.getElem_map, List.getElem_map, List.getElem_mapIdx, Margin.cleanLine_around]
  intro h
  rw [d.head?_trim _ hmem] at h
  exact absurd h (hstar _ hmem)

/-- A comment is read back from every block that it is written in. -/
theorem ofBlock_decorated (d : CommentLines) (hstar : ∀ l ∈ d.lines, l.head? ≠ some '*')
    (above : List Margin) (margin : Nat → Margin) (below : List Margin) :
    Comment.ofBlock (d.block above margin below) = d.comment := by
  have hempty : ∀ ms : List Margin, ∀ l ∈ ms.map (·.around []), '\n' ∉ l := by
    intro ms l hl
    obtain ⟨m, -, rfl⟩ := List.mem_map.1 hl
    exact m.oneLine List.not_mem_nil
  have hlines : ∀ l ∈ d.lines.mapIdx (fun i l => (margin i).around l), '\n' ∉ l := by
    intro l hl
    obtain ⟨i, hi, rfl⟩ := List.mem_mapIdx.1 hl
    exact (margin i).oneLine (d.oneLine _ (List.getElem_mem hi))
  refine d.ofBlock_delimited ?_ (a := above.length) (b := below.length) ?_
  · intro l hl
    rcases List.mem_append.1 hl with hl | hl
    · exact hempty above l hl
    · rcases List.mem_append.1 hl with hl | hl
      · exact hlines l hl
      · exact hempty below l hl
  · rw [List.map_append, List.map_append, d.map_cleanLine_around hstar,
      map_cleanLine_around_nil, map_cleanLine_around_nil]

/-- A comment with a tag on three lines, the last of them empty. -/
def sample : CommentLines where
  description := ["Gives money.".toList]
  tags := [
    { name := ['p', 'a', 'r', 'a', 'm']
      gap := [' ', ' ']
      first := "client Player".toList
      more := ["index.".toList, []]
      name_ne_nil := by decide
      isWordChar_of_mem := List.all_eq_true.1 (by decide)
      gap_ne_nil := by decide
      isPad_gap := .of_all (by decide)
      trim_first := by decide
      oneLine_first := by decide
      isPlain_of_mem := by decide }]
  isPlain_of_mem := by decide
  head_ne_nil := by decide
  getLast_ne_nil := by decide

/-- Margins for it, no two of them alike. -/
def sampleMargin : Nat → Margin
  | 0 => { indent := ['\t'], stars := 1, space := [' '] }
  | 1 => { indent := [' '], trail := [' '] }
  | 2 => { indent := [' '], stars := 2, space := [' ', ' ', ' '] }
  | _ => {}

theorem ofBlock_decorated_sample :
    (∀ l ∈ sample.lines, l.head? ≠ some '*') ∧
      Comment.ofBlock "/**\n\t* Gives money.\n @param  client Player \n **   index.\n\n */".toList
        = ⟨"Gives money.", { param := [⟨"client", "Player index."⟩] }⟩ := by
  have hstar : ∀ l ∈ sample.lines, l.head? ≠ some '*' := by decide
  have hblock : sample.block [{ stars := 1 }] sampleMargin [{ indent := [' '] }]
      = "/**\n\t* Gives money.\n @param  client Player \n **   index.\n\n */".toList := by
    decide +kernel
  have hcomment : sample.comment
      = ⟨"Gives money.", { param := [⟨"client", "Player index."⟩] }⟩ := by
    decide +kernel
  refine ⟨hstar, ?_⟩
  rw [← hblock, ← hcomment]
  exact ofBlock_decorated sample hstar _ _ _

end CommentLines

end PawnApi.Doc
