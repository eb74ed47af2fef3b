/-
  PawnApi.Proofs.RoundTrip

  Files that are printed and read back.

  A printed declaration with its documentation is one chunk of the file: the block closes
  at its own end, and behind the declaration the scan is in code outside all braces, so the
  next block opens a chunk of its own. The comment and the declaration of a chunk are read
  back by the modules before this one; what a file of printed declarations is parsed to is
  therefore the list of entries they stand for, each once and in order
  (`Include.parse_printed`).
-/
import PawnApi.Proofs.Blocks
import PawnApi.Proofs.Declarations
import PawnApi.Proofs.Documentation
import PawnApi.Proofs.LineEndings

namespace PawnApi.Print

open PawnApi.Source PawnApi.Declaration

/-! ## The code of a declaration -/

namespace Decl

/-- The first token of a code opens a line, although nothing stands before it. -/
theorem exists_tokens (d : Decl) : ∃ t, Source.tokens (d.text ++ ['\n']) = t :: d.tail ∧
    t.isWord d.keyword = true ∧ t.opensLine = true := by
  have hspells : Spells (word [] d.keyword.toList :: d.tail) ['\n'] := d.spells (by simp) ['\n']
  have hend : lexFrom false ['\n'] = ⟨[], ['\n']⟩ := by decide +kernel
  have hlex := hspells.lexFrom_eq
  rw [d.render_tokens, List.nil_append, hend, Lexed.after, List.append_nil] at hlex
  -- The flag of the first token is all that a start in the middle of a line changes.
  have hmiddle := tokens_lexFrom false (d.text ++ ['\n'])
  have hstart := tokens_lexFrom true (d.text ++ ['\n'])
  rw [hlex] at hmiddle
  change Source.tokens _ = _ at hstart
  cases ht : Source.tokens (d.text ++ ['\n']) with
  | nil =>
    rw [ht] at hmiddle
    cases hmiddle
  | cons t ts =>
    rw [ht, List.modifyHead_cons] at hmiddle hstart
    obtain ⟨hword, rfl⟩ := List.cons.inj hmiddle
    have hopens : t.opensLine = true := congrArg Token.opensLine (List.cons.inj hstart).1
    have hkind : t.kind = wordKind d.keyword.toList := (congrArg Token.kind hword).symm
    have htext : t.text = d.keyword.toList := (congrArg Token.text hword).symm
    refine ⟨t, rfl, ?_, hopens⟩
    rw [Token.isWord, hkind, htext, d.wordKind_keyword]
    simp

theorem isBlank_head_text (d : Decl) (rest : List Char) :
    ∀ c ∈ (d.text ++ rest).head?, Text.isBlank c = false := by
  have htext : d.text = d.keyword.toList ++ Token.render d.tail := by
    have h := d.render_tokens []
    rwa [Token.render_cons, gap_word, text_word, List.nil_append, List.nil_append, eq_comm] at h
  obtain ⟨hne, hword⟩ := d.isWord_keyword
  obtain ⟨c, r, hr⟩ := List.exists_cons_of_ne_nil hne
  rw [htext, hr]
  rintro _ ⟨⟩
  exact isBlank_of_isIdentChar (hword c (hr ▸ List.mem_cons_self))

/-- Behind a declaration and a line feed the scan is in code again, outside all braces. -/
theorem run_text (d : Decl) :
    Scan.run ⟨.code, 0⟩ ('\n' :: (d.text ++ ['\n'])) = ⟨.code, 0⟩ := by
  have hspells : Spells (word ['\n'] d.keyword.toList :: d.tail) ['\n'] :=
    d.spells (by decide) ['\n']
  have hrun := hspells.run_eq 0
  rw [d.render_tokens, foldl_of_level? (d.neutral ['\n'] 0)] at hrun
  exact hrun

theorem outlineFrom_text (d : Decl) :
    outlineFrom 0 ('\n' :: (d.text ++ ['\n'])) = ⟨'\n' :: (d.text ++ ['\n']), [], []⟩ := by
  have hspells : Spells (word ['\n'] d.keyword.toList :: d.tail) ['\n'] :=
    d.spells (by decide) ['\n']
  have hend : outlineFrom 0 ['\n'] = ⟨['\n'], [], []⟩ := by decide +kernel
  have houtline := hspells.outlineFrom_eq 0
  rw [d.render_tokens, foldl_of_level? (d.neutral ['\n'] 0), hend] at houtline
  exact houtline

end Decl

/-! ## Chunks -/

namespace Documented

/-- The block and what stands behind it. -/
def chunk (d : Documented) : Chunk :=
  ⟨d.doc.block, '\n' :: (d.decl.text ++ ['\n'])⟩

theorem text_eq (d : Documented) :
    d.text = '/' :: '*' ::
      (d.doc.interior ++ '*' :: '/' :: ('\n' :: (d.decl.text ++ ['\n']))) := by
  rw [text, d.doc.block_eq]
  simp

theorem scan_text (d : Documented) : scan d.text = ⟨.code, 0⟩ := by
  have hclose := d.doc.closeComment?_block ('\n' :: (d.decl.text ++ ['\n']))
  rw [scan, d.text_eq]
  -- Behind the opening delimiter the scan is in a block, until the first star-slash.
  show Scan.run ⟨.block, 0⟩ (d.doc.interior ++ '*' :: '/' :: _) = ⟨.code, 0⟩
  rw [Scan.run_block_of_closeComment? 0 hclose, d.decl.run_text]

theorem chunks_text (d : Documented) : chunks d.text = [d.chunk] := by
  have hclose := d.doc.closeComment?_block ('\n' :: (d.decl.text ++ ['\n']))
  rw [chunks, outline, d.text_eq, outlineFrom_block 0 hclose, if_pos ⟨rfl, rfl⟩,
    d.decl.outlineFrom_text, chunk, d.doc.block_eq]
  rfl

/-- A chunk is read as the entry that was printed. -/
theorem entryOf_chunk (file : String) (d : Documented) :
    Include.entryOf file d.chunk = some (d.entry file) := by
  have hcode : d.chunk.code = d.decl.text ++ ['\n'] := by
    rw [Chunk.code, chunk, Text.trimStart_cons_of_isBlank (by decide)]
    exact Text.trimStart_eq_self (d.decl.isBlank_head_text ['\n'])
  obtain ⟨t, htokens, hword, hopens⟩ := d.decl.exists_tokens
  rw [Include.entryOf, hcode, chunk, d.doc.ofBlock_block, classify, htokens,
    d.decl.find?_tokens _ hword hopens]
  rfl

theorem noReturn (d : Documented) : '\r' ∉ d.text := by
  have hblock := d.doc.noReturn
  have hdecl := d.decl.noReturn
  simp [text, hblock, hdecl]

end Documented

/-! ## Files -/

/-- A file of printed declarations falls into their chunks. -/
theorem chunks_flatMap (ds : List Documented) :
    chunks (ds.flatMap Documented.text) = ds.map Documented.chunk := by
  induction ds with
  | nil => decide +kernel
  | cons d ds ih =>
    rw [List.flatMap_cons, List.map_cons]
    cases ds with
    | nil => rw [List.flatMap_nil, List.append_nil, d.chunks_text, List.map_nil]
    | cons e ds =>
      -- What follows opens with a block, so the file splits in front of it.
      obtain ⟨r, hr⟩ : ∃ r, (e :: ds).flatMap Documented.text = '/' :: '*' :: '*' :: r := by
        rw [List.flatMap_cons, e.text_eq, DocText.interior]
        exact ⟨_, rfl⟩
      rw [hr] at ih ⊢
      rw [chunks_append_doc d.scan_text, d.chunks_text, ih]
      rfl

/-! ### A sample -/

/-- A function with a comma in its default and a block in its body. -/
def sampleFunction : Callable where
  first := .stock
  more := [.static]
  result := some ⟨{ text := "char".toList }, 1⟩
  ident := { text := "Name".toList }
  params :=
    [{ isConst := false
       type := ⟨{ text := "int".toList }, 0⟩
       byReference := true
       ident := { text := "id".toList }
       sizes := []
       default := some
        { text := "Max(A, B)".toList
          ne_nil := by decide +kernel
          oneLine := by decide +kernel
          noReturn := by decide +kernel
          commentFree := by decide +kernel
          isBlank_head := by decide +kernel
          isBlank_last := by decide +kernel
          isOutside := by decide +kernel
          parentheses := by decide +kernel
          braces := by decide +kernel
          nesting_eq := by decide +kernel
          cut_eq := by decide +kernel } }]
  body := some ⟨" /** No. */ ".toList, by decide +kernel, by decide +kernel, by decide +kernel⟩

/-- A methodmap with a constructor and a property. -/
def sampleMethodmap : MethodmapDecl where
  ident := { text := "Map".toList }
  parent := some { text := "Handle".toList }
  members :=
    [.callable
      { first := .published
        more := [.kind .native]
        result := none
        ident := { text := "Map".toList }
        params := []
        body := none },
     .property ⟨{ text := "int".toList }, 0⟩ { text := "Size".toList } none]

/-- A comment with one line and one tag, and one with neither. -/
def sample : List Documented :=
  [{ doc :=
      { description := ["Names it.".toList]
        tags := [⟨"param".toList, "id Which.".toList, by decide +kernel, by decide +kernel,
          ⟨by decide +kernel, by decide +kernel, by decide +kernel, by decide +kernel⟩⟩]
        isProse_of_mem := by
          rintro _ (_ | ⟨_, ⟨⟩⟩)
          exact ⟨by decide +kernel, by decide +kernel, by decide +kernel, by decide +kernel⟩
        isTagLine_of_mem := by decide +kernel
        head_ne_nil := by decide +kernel
        getLast_ne_nil := by decide +kernel }
     decl := .function sampleFunction rfl },
   { doc := ⟨[], [], by simp, by simp, by simp, by simp⟩
     decl := .methodmap sampleMethodmap }]

/-- What the sample is printed as. -/
def sampleSource : List Char :=
  ["/**", " * Names it.", " * @param id Which.", " */",
    "stock static char[] Name(int &id = Max(A, B)) \x7b /** No. */ \x7d",
    "/**", " */", "methodmap Map < Handle \x7b", "    public native Map();",
    "    public property int Size;", "\x7d"].flatMap fun l => l.toList ++ ['\n']

end PawnApi.Print

namespace PawnApi.Include

open PawnApi.Source PawnApi.Print

/-- **Round trip.** A file of documented declarations, printed behind each other, is parsed
    to the entries they stand for, each once and in order. -/
theorem parse_printed (file : String) (ds : List Documented) :
    parse (ds.flatMap Documented.text) file = ds.map (Documented.entry file) := by
  -- Nothing that is printed has a carriage return, so the line endings stay as they are.
  have hcr : '\r' ∉ ds.flatMap Documented.text := by
    intro h
    obtain ⟨d, -, hd⟩ := List.mem_flatMap.mp h
    exact d.noReturn hd
  have hentry : entryOf file ∘ Documented.chunk = some ∘ Documented.entry file :=
    funext (Documented.entryOf_chunk file)
  rw [parse, Text.lfEndings_of_not_mem hcr, chunks_flatMap, List.filterMap_map, hentry,
    List.filterMap_eq_map]

/-- The sample above, printed and read back. -/
theorem parse_printed_sample :
    parse sampleSource "a.inc"
      = [⟨"Name", .function .stock "char[]" [⟨"id", "int", some "Max(A, B)", "Which."⟩],
          "Names it.", { param := [⟨"id", "Which."⟩] },
          "stock static char[] Name(int &id = Max(A, B))", "a.inc"⟩,
        ⟨"Map", .methodmap (some "Handle") [⟨"Map", .native, "Map", [], "public native Map();"⟩]
          [⟨"Size", "int"⟩], "", {}, "methodmap Map < Handle", "a.inc"⟩] := by
  have htext : sample.flatMap Documented.text = sampleSource := by decide +kernel
  rw [← htext, parse_printed]
  decide +kernel

end PawnApi.Include
