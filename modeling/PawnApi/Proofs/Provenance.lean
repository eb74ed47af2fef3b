/-
  PawnApi.Proofs.Provenance

  Where the entries of a source text come from.

  Every entry comes from a documentation block of its own and a keyword token outside
  all braces behind that block and before the next one (`parse_origins`). The classifier
  counts braces from the start of a chunk and the outline from the start of the text;
  both counts agree because a block stands outside all braces.
-/
import Mathlib.Data.List.Basic
import PawnApi.Include
import PawnApi.Proofs.Blocks
import PawnApi.Proofs.Frames
import PawnApi.Proofs.LineEndings

namespace PawnApi.Declaration

open PawnApi.Source

/-! ## What the classifier finds -/

/-- Whether a token is the keyword that a declaration of this shape starts with. -/
def StartsWith (t : Token) : Shape → Prop
  | .function .. => ∃ kind : FunctionKind, t.isWord kind.keyword = true
  | .methodmap .. => t.isWord "methodmap" = true
  | .typedef .. => t.isWord "typedef" = true

/-- The text of a declaration starts with its first token. -/
theorem exists_quote_eq {t : Token} {ts rest : List Token} (h : rest.length ≤ ts.length) :
    ∃ n, quote (t :: ts) rest
      = String.ofList (Text.onOneLine (Token.span (t :: ts.take n))) := by
  refine ⟨ts.length - rest.length, ?_⟩
  have hl : (t :: ts).length - rest.length = (ts.length - rest.length) + 1 := by
    rw [List.length_cons]
    omega
  rw [quote, hl, List.take_succ_cons]

theorem length_unquoted_of_ending? {ts unquoted after : List Token}
    (h : ending? ts = some (unquoted, after)) : unquoted.length ≤ ts.length := by
  cases ts with
  | nil => simp [ending?] at h
  | cons t ts =>
    rw [ending?] at h
    split at h
    · simp only [Option.some.injEq, Prod.mk.injEq] at h
      rw [← h.1, List.length_cons]
      omega
    split at h
    · split at h <;>
      · simp only [Option.some.injEq, Prod.mk.injEq] at h
        rw [← h.1]
    · simp at h

theorem length_rest_of_parent? {ts rest : List Token} {inherits : Option String}
    (h : parent? ts = some (inherits, rest)) : rest.length ≤ ts.length := by
  cases ts with
  | nil =>
    simp only [parent?, Option.some.injEq, Prod.mk.injEq] at h
    rw [← h.2]
  | cons t ts =>
    rw [parent?] at h
    split at h
    · simp only [Option.map_eq_some_iff, Prod.mk.injEq] at h
      obtain ⟨⟨name, r⟩, hi, -, rfl⟩ := h
      have := length_rest_of_ident? hi
      simp only [List.length_cons]
      omega
    · simp only [Option.some.injEq, Prod.mk.injEq] at h
      rw [← h.2]

theorem length_of_afterSemicolon? {ts rest : List Token} (h : afterSemicolon? ts = some rest) :
    rest.length ≤ ts.length := by
  unfold afterSemicolon? at h
  split at h
  · simp at h
  · split at h
    · rw [← Option.some.inj h]
      simp
    · simp at h

/-- What is found at a place of the token list: the keyword of its shape, and from it on
    the text of the declaration. -/
structure FoundAt (found : Found) (t : Token) (ts : List Token) : Prop where
  starts : StartsWith t found.shape
  written : ∃ n, found.written
    = String.ofList (Text.onOneLine (Token.span (t :: ts.take n)))

theorem foundAt_of_functionAt? {tags : Doc.Tags} {ts : List Token} {found : Found}
    (h : functionAt? tags ts = some found) : ∃ t us, ts = t :: us ∧ FoundAt found t us := by
  simp only [functionAt?, Option.bind_eq_bind, Option.bind_eq_some_iff, Option.pure_def,
    Option.some.injEq] at h
  obtain ⟨⟨f, after⟩, hf, rfl⟩ := h
  cases ts with
  | nil => simp [function?] at hf
  | cons t us =>
    simp only [function?, Option.bind_eq_bind, Option.bind_eq_some_iff, Option.pure_def,
      Option.some.injEq, Prod.mk.injEq] at hf
    obtain ⟨first, hk, ⟨type, name, rest⟩, hr, g, hg, ⟨unquoted, after'⟩, he, rfl, rfl⟩ := hf
    have h₁ := length_skipKeywords_le first us
    have h₂ := length_skipMarker_le (skipKeywords first us).2
    have h₃ := length_rest_of_resultAndName? hr
    have h₄ := length_rest_of_group? hg
    have h₅ := length_unquoted_of_ending? he
    have hle : unquoted.length ≤ us.length := by
      simp only at h₄
      omega
    exact ⟨t, us, rfl, ⟨first, isWord_of_kind? hk⟩, exists_quote_eq hle⟩

theorem foundAt_of_methodmapAt? {ts : List Token} {found : Found}
    (h : methodmapAt? ts = some found) : ∃ t us, ts = t :: us ∧ FoundAt found t us := by
  cases ts with
  | nil => simp [methodmapAt?] at h
  | cons t us =>
    cases hk : t.isWord "methodmap" with
    | false =>
      rw [methodmapAt?_of_isWord_eq_false hk] at h
      cases h
    | true =>
      rw [methodmapAt?, guard_of_eq_true hk] at h
      simp only [Option.bind_eq_bind, Option.bind_some, Option.bind_eq_some_iff, Option.pure_def,
        Option.some.injEq] at h
      obtain ⟨⟨name, rest⟩, hn, ⟨inherits, rest'⟩, hp, rfl⟩ := h
      have h₁ := length_rest_of_ident? hn
      have h₂ := length_rest_of_parent? hp
      have hle : rest'.length ≤ us.length := by
        simp only at h₁ h₂
        omega
      exact ⟨t, us, rfl, hk, exists_quote_eq hle⟩

theorem foundAt_of_typedefAt? {tags : Doc.Tags} {ts : List Token} {found : Found}
    (h : typedefAt? tags ts = some found) : ∃ t us, ts = t :: us ∧ FoundAt found t us := by
  cases ts with
  | nil => simp [typedefAt?] at h
  | cons t us =>
    cases hk : t.isWord "typedef" with
    | false =>
      rw [typedefAt?_of_isWord_eq_false hk] at h
      cases h
    | true =>
      rw [typedefAt?, guard_of_eq_true hk] at h
      simp only [Option.bind_eq_bind, Option.bind_some, Option.bind_eq_some_iff, Option.pure_def,
        Option.some.injEq] at h
      obtain ⟨⟨name, r₀⟩, hn, r₁, hr₁, ⟨type, r₂⟩, hr₂, g, hg, after, ha, rfl⟩ := h
      have h₀ := length_rest_of_ident? hn
      have h₁ := (suffix_of_functionTypeFollows? hr₁).length_le
      have h₂ := length_rest_of_typeName? hr₂
      have h₃ := length_rest_of_group? hg
      have h₄ := length_of_afterSemicolon? ha
      have hle : after.length ≤ us.length := by
        simp only at h₀ h₁ h₂ h₃
        omega
      exact ⟨t, us, rfl, hk, exists_quote_eq hle⟩

/-- What the classifier finds starts with a keyword outside all braces. -/
theorem exists_foundAt_of_find? {tags : Doc.Tags} {ts : List Token} {found : Found}
    (h : find? tags ts = some found) :
    ∃ lead t us, ts = lead ++ t :: us ∧ lead.foldl depthAfter 0 = 0 ∧ FoundAt found t us := by
  have main : ∀ us ∈ statements ts, (∃ t vs, us = t :: vs ∧ FoundAt found t vs) →
      ∃ lead t us, ts = lead ++ t :: us ∧ lead.foldl depthAfter 0 = 0 ∧ FoundAt found t us := by
    rintro us hus ⟨t, vs, rfl, hf⟩
    obtain ⟨lead, hl, hd⟩ := exists_append_of_mem_statementsFrom hus
    exact ⟨lead, t, vs, hl, hd, hf⟩
  simp only [find?, Option.or_eq_some_iff, List.findSome?_eq_some_iff] at h
  rcases h with ⟨_, us, _, hs, hf, _⟩ | ⟨-, ⟨_, us, _, hs, hf, _⟩ | ⟨-, _, us, _, hs, hf, _⟩⟩
  · exact main us (by rw [hs]; simp) (foundAt_of_functionAt? hf)
  · exact main us (by rw [hs]; simp) (foundAt_of_methodmapAt? hf)
  · exact main us (by rw [hs]; simp) (foundAt_of_typedefAt? hf)

/-- What an entry takes from its comment, from the file's name and from the declaration
    that was found. -/
theorem found_of_classify {code : List Char} {comment : Doc.Comment} {file : String} {e : Entry}
    (h : classify code comment file = some e) :
    e.comment = comment.description ∧ e.tags = comment.tags ∧ e.sourceFile = file ∧
      ∃ found, find? comment.tags (tokens code) = some found ∧ e.shape = found.shape ∧
        e.fullDeclaration = found.written := by
  obtain ⟨found, hfound, rfl⟩ := Option.map_eq_some_iff.1 h
  exact ⟨rfl, rfl, rfl, found, hfound, rfl, rfl⟩

end PawnApi.Declaration

namespace PawnApi.Include

open PawnApi.Source
open PawnApi.Declaration (depthAfter StartsWith)

/-! ## Origins -/

/-- An entry with the places of the source text that it comes from. -/
structure Origin where
  entry : Entry
  /-- The source text before the documentation block. -/
  before : List Char
  block : List Char
  /-- The source text behind the documentation block. -/
  after : List Char
  /-- The tokens of the source text before the declaration. -/
  lead : List Token
  /-- The first token of the declaration. -/
  keyword : Token
  rest : List Token
  /-- The declaration as written. -/
  span : List Char

namespace Origin

/-- The source text before the declaration. -/
def start (o : Origin) : List Char :=
  Token.render o.lead ++ o.keyword.gap

/-- What ties an entry to the places of a source text. -/
structure Holds (o : Origin) (source : List Char) (file : String) : Prop where
  /-- The block is a top-level documentation block, and it alone documents the entry. -/
  doc : DocBlock source o.before o.block o.after
  comment_eq : o.entry.comment = (Doc.Comment.ofBlock o.block).description
  tags_eq : o.entry.tags = (Doc.Comment.ofBlock o.block).tags
  sourceFile_eq : o.entry.sourceFile = file
  /-- The keyword is a token of the whole text, outside all braces. -/
  tokens_eq : tokens source = o.lead ++ o.keyword :: o.rest
  depth_eq : o.lead.foldl depthAfter 0 = 0
  starts : StartsWith o.keyword o.entry.shape
  /-- The declaration is what the source text holds from the keyword on. -/
  span_eq : o.start ++ o.span <+: source
  keyword_le : o.keyword.text <+: o.span
  written_eq : o.entry.fullDeclaration = String.ofList (Text.onOneLine o.span)
  /-- It stands behind its block and before the next one. -/
  block_le : (o.before ++ o.block).length ≤ o.start.length
  span_le : ∀ before block after, DocBlock source before block after →
    o.before.length < before.length → (o.start ++ o.span).length ≤ before.length

end Origin

/-- Tokens with a longer gap before the first of them are the same words at the same
    depth. -/
theorem exists_modifyHead_append (gap : List Char) (o : Token → Bool) (lead : List Token)
    (t : Token) (ts : List Token) :
    ∃ lead' t', ((lead ++ t :: ts).modifyHead fun t =>
        { t with gap := gap ++ t.gap, opensLine := o t }) = lead' ++ t' :: ts ∧
      t'.kind = t.kind ∧ t'.text = t.text ∧
      lead'.foldl depthAfter 0 = lead.foldl depthAfter 0 ∧
      Token.render lead' ++ t'.gap = gap ++ (Token.render lead ++ t.gap) := by
  cases lead with
  | nil => exact ⟨[], _, rfl, rfl, rfl, rfl, by simp⟩
  | cons l ls => exact ⟨_ :: ls, t, rfl, rfl, rfl, rfl, by simp⟩

theorem StartsWith.congr {t t' : Token} {shape : Shape} (h : StartsWith t shape)
    (hk : t'.kind = t.kind) (ht : t'.text = t.text) : StartsWith t' shape := by
  cases shape <;> simpa only [StartsWith, Token.isWord, hk, ht] using h

/-- A chunk that makes an entry has an origin in the whole text. -/
theorem exists_origin {source before block after : List Char} {file : String} {e : Entry}
    (h : DocBlock source before block after)
    (he : entryOf file ⟨block, (outlineFrom 0 after).lead⟩ = some e) :
    ∃ o : Origin, o.entry = e ∧ o.before = before ∧ o.Holds source file := by
  obtain ⟨hcomment, htags, hfile, found, hfound, hshape, hdecl⟩ := Declaration.found_of_classify he
  obtain ⟨front, rest, hsource, hfront, hlen, hscan, o, more, -, htokens⟩ := h.exists_front
  have hnext := @DocBlock.length_lead_le _ _ _ _ h
  rw [← hfront] at hnext
  generalize (outlineFrom 0 after).lead = body at *
  obtain ⟨lead, t, ts, hcode, hdepth, hstarts, n, hwritten⟩ :=
    Declaration.exists_foundAt_of_find? hfound
  rw [Chunk.code] at hcode
  obtain ⟨lead', t', hmod, hkind, htext, hdepth', hrender⟩ :=
    exists_modifyHead_append (lex front).tail o lead t ts
  rw [hcode, hmod] at htokens
  have hbefore : (tokens front).foldl depthAfter 0 = 0 := by
    have := depth_run (d := 0) (a := front) true (by
      rw [show Scan.run ⟨.code, 0⟩ front = ⟨.code, 0⟩ from hscan]
      rfl)
    rw [show Scan.run ⟨.code, 0⟩ front = ⟨.code, 0⟩ from hscan] at this
    exact this.symm
  have hstart : Token.render (tokens front ++ lead') ++ t'.gap
      = front ++ (Token.render lead ++ t.gap) := by
    have htext := Lexed.text_lex front
    rw [Token.render_append, List.append_assoc, hrender, ← List.append_assoc]
    exact congrArg (· ++ (Token.render lead ++ t.gap)) htext
  -- the declaration lies inside the code, so everything before its end does
  have hspan : front ++ (Token.render lead ++ t.gap) ++ Token.span (t :: ts.take n)
      <+: front ++ Text.trimStart body := by
    have htext := Lexed.text_lex (Text.trimStart body)
    rw [Lexed.text, show (lex (Text.trimStart body)).tokens = lead ++ t :: ts from hcode,
      ← List.take_append_drop n ts] at htext
    generalize (lex (Text.trimStart body)).tail = tail at htext
    refine ⟨Token.render (ts.drop n) ++ tail, ?_⟩
    rw [← htext]
    simp only [Token.span, Token.render_append, Token.render_cons, List.append_assoc]
  refine ⟨⟨e, before, block, after, tokens front ++ lead', t', ts ++ more,
    Token.span (t :: ts.take n)⟩, rfl, rfl, ?_⟩
  have hle := hspan.length_le
  refine
    { doc := h
      comment_eq := hcomment
      tags_eq := htags
      sourceFile_eq := hfile
      tokens_eq := by rw [htokens]; simp
      depth_eq := by rw [List.foldl_append, hbefore, hdepth', hdepth]
      starts := by rw [hshape]; exact StartsWith.congr hstarts hkind htext
      span_eq := ?_
      keyword_le := by rw [htext]; exact List.prefix_append _ _
      written_eq := by rw [hdecl]; exact hwritten
      block_le := ?_
      span_le := ?_ }
  · rw [Origin.start, hstart, hsource, ← List.append_assoc front (Text.trimStart body)]
    exact hspan.trans (List.prefix_append _ _)
  · rw [Origin.start, hstart]
    simp only [List.length_append] at hlen ⊢
    omega
  · intro before' block' after' h' hlt
    rw [Origin.start, hstart]
    exact hle.trans (hnext h' hlt)

/-- Blocks that follow each other make entries whose origins do. -/
theorem exists_origins (source : List Char) (file : String) (ps : List Place)
    (hpair : ps.Pairwise (fun p q => p.before.length < q.before.length))
    (hall : ∀ p ∈ ps, DocBlock source p.before p.block p.after) :
    ∃ os : List Origin,
      (ps.map Place.chunk).filterMap (entryOf file) = os.map Origin.entry ∧
      os.Pairwise (fun o p => o.before.length < p.before.length) ∧
      ∀ o ∈ os, o.Holds source file ∧ ∃ p ∈ ps, o.before = p.before := by
  induction ps with
  | nil => exact ⟨[], rfl, .nil, by simp⟩
  | cons p ps ih =>
    obtain ⟨hp, hpair⟩ := List.pairwise_cons.1 hpair
    obtain ⟨os, hos, hpair', hall'⟩ := ih hpair fun q hq => hall q (by simp [hq])
    have hlater : ∀ o ∈ os, o.Holds source file ∧ ∃ q ∈ p :: ps, o.before = q.before := by
      intro o ho
      obtain ⟨hh, q, hq, hb⟩ := hall' o ho
      exact ⟨hh, q, by simp [hq], hb⟩
    rw [List.map_cons, List.filterMap_cons]
    cases he : entryOf file p.chunk with
    | none => exact ⟨os, hos, hpair', hlater⟩
    | some e =>
      obtain ⟨o, rfl, hbefore, ho⟩ := exists_origin (hall p (by simp)) he
      refine ⟨o :: os, by rw [List.map_cons, hos], .cons ?_ hpair', ?_⟩
      · intro o' ho'
        obtain ⟨-, q, hq, hb⟩ := hall' o' ho'
        rw [hbefore, hb]
        exact hp q hq
      · intro o' ho'
        rcases List.mem_cons.1 ho' with rfl | ho'
        · exact ⟨ho, p, by simp, hbefore⟩
        · exact hlater o' ho'

/-- **Provenance.** The entries of a source text come from top-level documentation blocks
    in increasing position, one block each. Each entry is documented by its block alone,
    starts with a keyword token outside all braces, and is written from that token on,
    behind its block and before the next one. -/
theorem parse_origins {source : List Char} (hcr : '\r' ∉ source) (file : String) :
    ∃ os : List Origin, parse source file = os.map Origin.entry ∧
      os.Pairwise (fun o p => o.before.length < p.before.length) ∧
      ∀ o ∈ os, o.Holds source file := by
  obtain ⟨ps, hps, hpair, hall, -⟩ := exists_places source.length 0 [] source le_rfl rfl
  obtain ⟨os, hos, hpair', hall'⟩ :=
    exists_origins source file ps hpair fun p hp => (hall p hp).1
  refine ⟨os, ?_, hpair', fun o ho => (hall' o ho).1⟩
  rw [parse, Text.lfEndings_of_not_mem hcr, ← hos, ← hps]
  rfl

/-- A stray closing brace, a block inside braces and a comment that is never closed, with a
    function before and behind the block inside braces. -/
def nestedText : List Char :=
  ("\x7d /** A. */\nstock int A() \x7b\n/** B. */\nnative int B();\n\x7d\n" ++
    "/** C. */\nnative int C();\n/* D").toList

/-- Both functions outside the braces have their origins, the first before the second. -/
theorem parse_origins_nested :
    '\r' ∉ nestedText ∧
    ∃ o p : Origin, parse nestedText "a.inc" = [o.entry, p.entry] ∧
      (o.entry.comment = "A." ∧ o.entry.fullDeclaration = "stock int A()") ∧
      (p.entry.comment = "C." ∧ p.entry.fullDeclaration = "native int C();") ∧
      o.before.length < p.before.length ∧
      o.Holds nestedText "a.inc" ∧ p.Holds nestedText "a.inc" := by
  have hcr : '\r' ∉ nestedText := by decide
  obtain ⟨os, hos, hpair, hall⟩ := parse_origins hcr "a.inc"
  have hwritten : (parse nestedText "a.inc").map (fun e => (e.comment, e.fullDeclaration))
      = [("A.", "stock int A()"), ("C.", "native int C();")] := by
    decide +kernel
  rw [hos, List.map_map] at hwritten
  -- two entries were written, so there are two origins
  have hlen : os.length = 2 := by simpa using congrArg List.length hwritten
  obtain ⟨o, p, rfl⟩ := List.length_eq_two.1 hlen
  simp only [List.map_cons, List.map_nil, Function.comp_apply, List.cons.injEq, Prod.mk.injEq,
    and_true] at hwritten
  refine ⟨hcr, o, p, hos, hwritten.1, hwritten.2, ?_, hall o (by simp), hall p (by simp)⟩
  exact List.rel_of_pairwise_cons hpair (by simp)

end PawnApi.Include
