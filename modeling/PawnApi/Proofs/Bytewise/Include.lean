/-
  PawnApi.Proofs.Bytewise.Include

  An include file read by offsets from end to end.

  Every function that cuts a text at offsets has a reading of its own, which stops at a trap
  if an offset is wrong, and no reading recovers from a trap that it meets. Each of them is
  equal to a result, for every text (`reading_meets_no_trap`).
-/
import PawnApi.Include
import PawnApi.Proofs.Bytewise.Blocks
import PawnApi.Proofs.Bytewise.Comments
import PawnApi.Proofs.Bytewise.Declarations

namespace PawnApi.Bytewise

open PawnApi.Source

/-- The entry for a documentation block and its code. -/
def chunkEntry (file : String) (chunk : List Char × List Char) : Checked (Option Entry) := do
  let comment ← parseComment chunk.1
  classify chunk.2 comment file

/-- The entries of an include file. -/
def parseInclude (source : List Char) (file : String) : Checked (List Entry) := do
  let cs ← docChunks (Text.lfEndings source)
  let found ← cs.mapM (chunkEntry file)
  return found.filterMap id

theorem chunkEntry_eq (file : String) (c : Chunk) :
    chunkEntry file (c.comment, c.code) = .ok (Include.entryOf file c) := by
  rw [chunkEntry, parseComment_eq, ok_bind, classify_eq, Include.entryOf]

theorem parseInclude_eq (source : List Char) (file : String) :
    parseInclude source file = .ok (Include.parse source file) := by
  have hentries : ((chunks (Text.lfEndings source)).map fun c => (c.comment, c.code)).mapM
      (chunkEntry file) = .ok ((chunks (Text.lfEndings source)).map (Include.entryOf file)) := by
    rw [List.mapM_map]
    exact mapM_eq_ok fun c _ => chunkEntry_eq file c
  rw [parseInclude, docChunks_eq, ok_bind, hentries, ok_bind, List.filterMap_map]
  rfl

/-- **No reading meets a trap.** A text is cut only at places between its characters, none
    of them behind its end, and from the first to the second; a byte is read only in front
    of the end; and one is taken only from a counter that is not zero. The first three
    lines say that nothing else goes through. Under these rules each reading of a text
    comes to its end with the result of the definition it stands for. -/
theorem reading_meets_no_trap (s : List Char) (tags : Doc.Tags) (comment : Doc.Comment)
    (file : String) :
    (∀ t start stop, (∃ u, excerpt t start stop = .ok u) ↔
      start ≤ stop ∧ stop ≤ (bytes t).length ∧ IsBoundary t start ∧ IsBoundary t stop) ∧
    (∀ bs i, (∃ b, byteAt bs i = .ok b) ↔ i < bs.length) ∧
    (∀ n, (∃ m, pred n = .ok m) ↔ 0 < n) ∧
    tokenize s = .ok ((located s).map place) ∧
    docChunks s = .ok ((chunks s).map fun c => (c.comment, c.code)) ∧
    parseComment s = .ok (Doc.Comment.ofBlock s) ∧
    splitTopLevel s = .ok (Param.pieceTexts s) ∧
    parseParams s tags = .ok (Param.ofText tags s) ∧
    classify s comment file = .ok (Declaration.classify s comment file) ∧
    methodmapBody s = .ok (Declaration.methods (tokens s), Declaration.properties (tokens s)) ∧
    parseInclude s file = .ok (Include.parse s file) :=
  ⟨fun _ _ _ => exists_excerpt_iff, fun _ _ => exists_byteAt_iff, fun _ => exists_pred_iff,
    tokenize_eq s, docChunks_eq s, parseComment_eq s, splitTopLevel_eq s,
    parseParams_eq s tags, classify_eq s comment file, methodmapBody_eq s,
    parseInclude_eq s file⟩

end PawnApi.Bytewise
