/-
  Include files: from source text to entries.
-/
import PawnApi.Declaration.Classify
import PawnApi.Doc.Block
import PawnApi.Source.Outline

namespace PawnApi.Include

open PawnApi.Source

/-- The entry that a documentation block and its code make, if the code declares
    anything. -/
def entryOf (file : String) (c : Chunk) : Option Entry :=
  Declaration.classify c.code (Doc.Comment.ofBlock c.comment) file

/-- The entries of an include file, in order. `file` is the name stamped on each. -/
def parse (source : List Char) (file : String) : List Entry :=
  (chunks (Text.lfEndings source)).filterMap (entryOf file)

end PawnApi.Include
