/-
  PawnApi.Proofs.Concatenation

  The entries of two files put behind each other.

  No state of the scan leaks over the start of a documentation block: where a text ends
  with a complete line outside comments, literals and braces, and the next one starts
  with a documentation block, closed or not, the entries of the whole are those of the
  first text followed by those of the second.
-/
import PawnApi.Include
import PawnApi.Proofs.Blocks
import PawnApi.Proofs.LineEndings

namespace PawnApi.Source

open PawnApi.Declaration (depthAfter)

/-- Whether a text is empty or ends with a line feed outside comments and literals. -/
def EndsLine (a : List Char) : Prop :=
  a = [] ∨ a.getLast? = some '\n' ∧ (scan a).mode.isOutside = true

/-- After a line feed, outside comments and literals means in code: no slash is pending. -/
theorem Mode.eq_code_of_isOutside_next {m : Mode} (h : (m.next '\n').isOutside = true) :
    m.next '\n' = .code := by
  cases m with
  | literal quote =>
    rw [Mode.next, if_neg (by decide), if_pos (Or.inr rfl)]
  | escape quote => simp [Mode.next, Mode.isOutside] at h
  | block => simp [Mode.next, Mode.isOutside] at h
  | star => simp [Mode.next, Mode.isOutside] at h
  | _ => rfl

theorem EndsLine.mode_scan {a : List Char} (h : EndsLine a) : (scan a).mode = .code := by
  rcases h with rfl | ⟨hl, ho⟩
  · rfl
  · obtain ⟨x, rfl⟩ := List.getLast?_eq_some_iff.1 hl
    rw [scan, Scan.run_append] at ho ⊢
    exact Mode.eq_code_of_isOutside_next ho

/-- Between complete lines outside all braces the scan starts anew. -/
theorem EndsLine.scan_eq {a : List Char} (h : EndsLine a)
    (hd : (tokens a).foldl depthAfter 0 = 0) : scan a = ⟨.code, 0⟩ := by
  have hm : (scan a).mode = .code := h.mode_scan
  have hdepth : (scan a).depth = 0 := by
    rw [← hd]
    exact depth_run true (by
      show (scan a).mode.isOutside = true
      rw [hm]
      rfl)
  rw [← hm, ← hdepth]

end PawnApi.Source

namespace PawnApi.Include

open PawnApi.Source PawnApi.Text
open PawnApi.Declaration (depthAfter)

/-- **Concatenation.** Where `a` ends with a complete line outside comments, literals and
    braces, and `b` starts with a documentation block that may be malformed in any way, the
    entries of `a ++ b` are the entries of `a` and then those of `b`. -/
theorem parse_append {a b : List Char} (file : String) (hcr : '\r' ∉ a) (ha : EndsLine a)
    (hd : (tokens a).foldl depthAfter 0 = 0) (hb : ['/', '*', '*'] <+: b) :
    parse (a ++ b) file = parse a file ++ parse b file := by
  obtain ⟨r, rfl⟩ := hb
  have hdoc : lfEndings (['/', '*', '*'] ++ r) = '/' :: '*' :: '*' :: lfEndings r :=
    lfEndings_append (by decide) r
  have hlf : lfEndings (a ++ (['/', '*', '*'] ++ r)) = a ++ '/' :: '*' :: '*' :: lfEndings r := by
    rw [lfEndings_append hcr, hdoc]
  unfold parse
  rw [hlf, hdoc, lfEndings_of_not_mem hcr, chunks_append_doc (ha.scan_eq hd),
    List.filterMap_append]

/-- A function, and behind its body a stray apostrophe and a stray closing brace. -/
def strayText : List Char :=
  "/** A. */\nstock int A() \x7b\x7d can't \x7b\n\x7d\n".toList

/-- A function, and behind it a block that is never closed. -/
def unclosedText : List Char :=
  "/** B. */\nnative int B();\n/** Never closed.\nnative int C();\n".toList

/-- What is stray in the first text leaks nothing into the second: the function of each is
    found. -/
theorem parse_append_stray :
    (parse strayText "a.inc").map Entry.name = ["A"] ∧
    (parse unclosedText "a.inc").map Entry.name = ["B"] ∧
    parse (strayText ++ unclosedText) "a.inc"
      = parse strayText "a.inc" ++ parse unclosedText "a.inc" := by
  refine ⟨by decide +kernel, by decide +kernel, ?_⟩
  refine parse_append "a.inc" (by decide) (Or.inr ⟨by decide, by decide⟩) ?_ (by decide)
  exact (depth_run true (by decide)).symm

end PawnApi.Include
