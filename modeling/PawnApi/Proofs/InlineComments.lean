/-
  PawnApi.Proofs.InlineComments

  Comments in parameter lists.

  A block comment behind a top-level comma of a parameter list is seen by the outline, by the
  lexer and by the reader of parameters. The outline passes over it, unless it opens a
  documentation block outside braces; the lexer adds it to the gap of the next token; and the
  reader cuts the list at the same commas. So the entry stays the same but for the declaration
  as written (`parse_comment_in_list`). A documentation comment outside braces ends the code of
  the block before it instead (`parse_documentation_in_list`).
-/
import PawnApi.Proofs.Bodies
import PawnApi.Proofs.Grammar
import PawnApi.Proofs.LineEndings
import PawnApi.Proofs.ParamPhrases

namespace PawnApi.Param

open PawnApi.Source

/-! ## What follows a top-level comma -/

/-- What is cut off before a top-level comma does not depend on what follows the comma, which
    is cut as a list of its own. -/
theorem exists_cut_comma {c : Token} (hc : c.isPunct ',' = true) {n : Nesting} {a : Bool}
    {ts : List Token} (hts : (nesting n a ts).isClosed = true) :
    ∃ first later, ∀ us, cut n a (ts ++ c :: us)
      = (first, later ++ (cut {} false us).1 :: (cut {} false us).2) := by
  induction ts generalizing n a with
  | nil =>
    obtain rfl : n = {} := eq_of_isClosed hts
    refine ⟨[], [], fun us => ?_⟩
    rw [List.nil_append, cut, if_pos (by rw [hc]; rfl)]
    rfl
  | cons t ts ih =>
    -- the only token behind `t` that matters to it is the next, and that is not in `us`
    have hafter : ∀ us, n.after a t (ts ++ c :: us) = n.after a t ts := by
      intro us
      cases ts with
      | cons u ts => rfl
      | nil =>
        have h₁ := Token.isPunct_of_ne hc (show ',' ≠ '<' by decide)
        have h₂ := Token.isPunct_of_ne hc (show ',' ≠ '=' by decide)
        simp [Nesting.after, opensAngle, h₁, h₂]
    rw [nesting] at hts
    by_cases hcut : (t.isPunct ',' && n.isClosed) = true
    · have hcomma := (Bool.and_eq_true_iff.1 hcut).1
      have hsame : n.after a t ts = n := by
        have hne : ∀ e, ',' ≠ e → t.isPunct e = false := fun e => Token.isPunct_of_ne hcomma
        simp [Nesting.after, hne]
      rw [hsame, Token.kind_of_isPunct hcomma] at hts
      obtain ⟨first, later, h⟩ := ih (a := false) hts
      refine ⟨[], first :: later, fun us => ?_⟩
      rw [List.cons_append, cut, if_pos hcut, h]
      rfl
    · obtain ⟨first, later, h⟩ := ih hts
      refine ⟨t :: first, later, fun us => ?_⟩
      rw [List.cons_append, cut, if_neg hcut, hafter, h]

/-- Empty stretches declare nothing, so they may be kept. -/
theorem filterMap_pieces (ts : List Token) :
    (pieces ts).filterMap ofPiece?
      = ((cut {} false ts).1 :: (cut {} false ts).2).filterMap ofPiece? := by
  have hnil : ∀ x : List Token,
      (if (!x.isEmpty) = true then ofPiece? x else none) = ofPiece? x := by
    intro x
    cases x with
    | nil => rfl
    | cons t x => rfl
  rw [pieces, List.filterMap_filter]
  simp only [hnil]

/-- What stands before the first token behind a top-level comma does not matter. -/
theorem ofTokens_comma {f : Token → Token} (hf : KeepsText f) (tags : Doc.Tags) {c : Token}
    (hc : c.isPunct ',' = true) {ts : List Token} (hts : (nesting {} false ts).isClosed = true)
    (us : List Token) :
    ofTokens tags (ts ++ c :: us.modifyHead f) = ofTokens tags (ts ++ c :: us) := by
  obtain ⟨first, later, hcut⟩ := exists_cut_comma hc hts
  rw [ofTokens, ofTokens, filterMap_pieces, filterMap_pieces, hcut, hcut, hf.cut_eq]
  simp only [List.filterMap_cons, List.filterMap_append, ofPiece?_modifyHead hf]

end PawnApi.Param

namespace PawnApi.Source

/-! ## Comments behind a comma -/

/-- Whatever has no star-slash in it may stand in a block comment. -/
theorem closedComment_of_unclosed {text : List Char} (h : ¬ ['*', '/'] <:+: text) :
    ClosedComment ('/' :: '*' :: (text ++ ['*', '/'])) := by
  refine ⟨text, rfl, ?_⟩
  rintro ⟨x, y, hxy⟩
  rcases List.eq_nil_or_concat y with rfl | ⟨y, e, rfl⟩
  · -- a star-slash at the very end would end with a slash, and the star is no slash
    rw [List.append_nil] at hxy
    have hlast := congrArg List.getLast? hxy
    simp at hlast
  · apply h
    rw [List.concat_eq_append, ← List.append_assoc] at hxy
    exact ⟨x, y, (List.append_inj' hxy rfl).1⟩

/-- A comment that opens no documentation block is passed over. -/
theorem outlineFrom_comment {d : Nat} {text : List Char} (htext : ¬ ['*', '/'] <:+: text)
    (hdoc : d = 0 → ∃ c ∈ text.head?, c ≠ '*') (y : List Char) :
    outlineFrom d ('/' :: '*' :: (text ++ ['*', '/']) ++ y)
      = (outlineFrom d y).push ('/' :: '*' :: (text ++ ['*', '/'])) := by
  obtain ⟨body, hbody, hclose⟩ := (closedComment_of_unclosed htext).exists_eq
  obtain rfl : text ++ ['*', '/'] = body := (List.cons.inj (List.cons.inj hbody).2).2
  have hne : ¬ (d = 0 ∧ (text ++ ['*', '/'] ++ y).head? = some '*') := by
    rintro ⟨hd, hhead⟩
    obtain ⟨c, hc, hstar⟩ := hdoc hd
    rw [List.append_assoc, List.head?_append, Option.mem_def.1 hc] at hhead
    exact hstar (Option.some.inj hhead)
  rw [List.cons_append, List.cons_append, outlineFrom_block d (hclose y), if_neg hne]

section

variable {a lead block x : List Char}

theorem outline_comma (ho : (scan a).mode.isOutside = true) (z : List Char) :
    outline (a ++ ',' :: z) = (outline a).append ((outlineFrom (scan a).depth z).push [',']) := by
  have hcut : (scan a).CutsAt (',' :: z) := by
    refine Scan.CutsAt.of_isOutside ho ?_
    intro e he
    obtain rfl : ',' = e := by simpa using he
    decide
  rw [outline, outlineFrom_append hcut,
    outlineFrom_cons _ (opensComment_of_ne (by decide) z), if_neg (by decide)]
  rfl

/-- If one block documents the code on both sides of a comma, it documents the code before it,
    and no other block comes behind. -/
theorem outline_of_outline_comma (ho : (scan a).mode.isOutside = true)
    (ha : a = lead ++ (block ++ x)) {y : List Char}
    (h : outline (a ++ ',' :: y) = ⟨lead, [⟨block, x ++ ',' :: y⟩], []⟩) :
    (outline a).lead = lead ∧ (outline a).chunks = [⟨block, x⟩] ∧
      outlineFrom (scan a).depth y = ⟨y, [], []⟩ := by
  rw [outline_comma ho, Outline.append] at h
  have htext := Outline.text_outlineFrom (scan a).depth y
  generalize outlineFrom (scan a).depth y = q at h htext
  obtain ⟨qlead, qchunks, qrest⟩ := q
  split at h
  · -- without a block before the comma, all before it would be in the lead
    rename_i hempty
    have hall : outline a = ⟨a, [], []⟩ :=
      outlineFrom_of_chunks_eq_nil ho (List.isEmpty_iff.1 hempty)
    have hlead := congrArg (List.length ∘ Outline.lead) h
    rw [hall, ha] at hlead
    simp [Outline.push] at hlead
  · rename_i hne
    obtain ⟨cs, c, hc⟩ := (List.eq_nil_or_concat (outline a).chunks).resolve_left
      fun hnil => hne (by rw [hnil]; rfl)
    rw [List.concat_eq_append] at hc
    rw [hc, extendLast_append] at h
    simp only [Outline.push, Outline.mk.injEq, List.append_assoc] at h
    obtain ⟨hlead, hchunks, rfl⟩ := h
    -- one chunk in all: none before the last one, and none behind the comma
    have hlength := congrArg List.length hchunks
    simp only [List.length_append, List.length_cons, List.length_nil] at hlength
    obtain rfl : cs = [] := List.eq_nil_of_length_eq_zero (by omega)
    obtain rfl : qchunks = [] := List.eq_nil_of_length_eq_zero (by omega)
    obtain rfl : qlead = y := by simpa [Outline.text] using htext
    simp only [List.nil_append, List.singleton_append, List.cons.injEq, Chunk.mk.injEq,
      and_true] at hchunks
    obtain ⟨hcomment, hbody⟩ := hchunks
    refine ⟨hlead, ?_, rfl⟩
    rw [hc, ← hcomment, ← List.append_cancel_right hbody]
    rfl

/-- A text that is passed over where it stands becomes part of the code. -/
theorem outline_insert (ho : (scan a).mode.isOutside = true) (ha : a = lead ++ (block ++ x))
    {y k : List Char} (h : outline (a ++ ',' :: y) = ⟨lead, [⟨block, x ++ ',' :: y⟩], []⟩)
    (hk : outlineFrom (scan a).depth (k ++ y) = (outlineFrom (scan a).depth y).push k) :
    outline (a ++ ',' :: (k ++ y)) = ⟨lead, [⟨block, x ++ ',' :: (k ++ y)⟩], []⟩ := by
  obtain ⟨hlead, hchunks, hy⟩ := outline_of_outline_comma ho ha h
  rw [outline_comma ho, hk, hy, Outline.append, hchunks, hlead]
  rfl

/-- A scan of the code before the comma ends where a scan of the whole text before it does. -/
theorem scan_code_of_outline_comma (ho : (scan a).mode.isOutside = true)
    (ha : a = lead ++ (block ++ x)) {y : List Char}
    (h : outline (a ++ ',' :: y) = ⟨lead, [⟨block, x ++ ',' :: y⟩], []⟩) :
    scan (Text.trimStart x) = scan a := by
  obtain ⟨-, hchunks, -⟩ := outline_of_outline_comma ho ha h
  rcases exists_last_place ho with hnil | ⟨cs, p, hcs, hdoc, hafter⟩
  · rw [chunks, hchunks] at hnil
    simp at hnil
  · rw [chunks, hchunks] at hcs
    have hlast := congrArg List.getLast? hcs
    simp only [List.getLast?_singleton, List.getLast?_concat, Option.some.injEq,
      Chunk.mk.injEq] at hlast
    rw [hlast.2]
    exact (hdoc.last_code hafter).1

end

/-- The tokens around a comma in code: those before it, and those behind it, the first of them
    behind a comment if there is one. -/
theorem exists_tokens_comma {u : List Char} (hu : (scan u).mode.isOutside = true) :
    ∃ c : Token, c.isPunct ',' = true ∧
      ∀ y, tokens (u ++ ',' :: y) = tokens u ++ c :: (lexFrom false y).tokens := by
  refine ⟨⟨(lex u).tail, .punct, [','], true && (tokens u).isEmpty || (lex u).tail.contains '\n'⟩,
    rfl, fun y => ?_⟩
  rw [tokens, lex, lexFrom_append_mark true hu (by decide)]
  rfl

theorem tokens_comment {k : List Char} (hk : ClosedComment k) (y : List Char) :
    (lexFrom false (k ++ y)).tokens = (lexFrom false y).tokens.modifyHead (Token.behind k) := by
  have hgap : GapItem y k := .block hk
  rw [lexFrom_behind false hgap.splitGap, Lexed.tokens_behind]

end PawnApi.Source

namespace PawnApi.Declaration

open PawnApi.Source PawnApi.Param

/-! ## The phrase around a comma -/

namespace FunctionPhrase

/-- The tokens through the opening parenthesis. -/
def front (p : FunctionPhrase) : List Token :=
  p.head :: (p.more ++ (pairTokens p.marker ++ (p.type.tokens ++ [p.name, p.params.opener])))

theorem whole_eq_front (p : FunctionPhrase) :
    p.whole = p.front ++ (p.params.inside ++ p.params.closer :: p.ending :: p.rest) := by
  simp [whole, header, signature, front, Bracketed.tokens]

theorem find?_whole (p : FunctionPhrase) (h : p.head.opensLine = true) (tags : Doc.Tags) :
    find? tags p.whole = some (p.found tags) :=
  find?_eq_some_iff.2
    (.function ⟨[], ⟨rfl, rfl, p.head, rfl, h⟩, fun _ _ _ => Nat.zero_le _⟩)

/-- A phrase stays one, and makes the same declaration but for the text, if something is put
    before the token behind a top-level comma of its parameter list. -/
theorem exists_modifyHead (p : FunctionPhrase) {before behind : List Token} {comma : Token}
    (hinside : p.params.inside = before ++ comma :: behind) (hcomma : comma.isPunct ',' = true)
    (hclosed : (nesting {} false before).isClosed = true) {f : Token → Token} (hf : KeepsText f) :
    ∃ q : FunctionPhrase, q.head = p.head ∧
      q.whole = p.front ++ (before ++ comma ::
        (behind ++ p.params.closer :: p.ending :: p.rest).modifyHead f) ∧
      ∀ tags, ∃ written, q.found tags = { p.found tags with written } := by
  -- the token is the closing parenthesis, if nothing else follows the comma
  obtain ⟨closer, hcloser, hmodify⟩ : ∃ closer : Token, closer.isPunct ')' = true ∧
      ∀ w, (behind ++ p.params.closer :: w).modifyHead f = behind.modifyHead f ++ closer :: w := by
    cases behind with
    | nil =>
      exact ⟨f p.params.closer, (hf.isPunct_eq _ _).trans p.params.isPunct_closer, fun _ => rfl⟩
    | cons t behind => exact ⟨p.params.closer, p.params.isPunct_closer, fun _ => rfl⟩
  have hbalanced : Source.Balanced '(' ')' (before ++ comma :: behind.modifyHead f) := by
    have h := p.params.balanced
    rw [Source.Balanced, hinside, List.append_cons, level?_append] at h
    rw [Source.Balanced, List.append_cons, level?_append]
    simpa only [level?_modifyHead hf.isPunct_eq] using h
  let q : FunctionPhrase :=
    { p with
      params := ⟨p.params.opener, before ++ comma :: behind.modifyHead f, closer,
        p.params.isPunct_opener, hbalanced, hcloser⟩ }
  refine ⟨q, rfl, ?_, fun tags => ⟨(q.found tags).written, ?_⟩⟩
  · rw [q.whole_eq_front, hmodify, List.append_assoc]
    rfl
  · have hparams : ofTokens tags q.params.inside = ofTokens tags p.params.inside := by
      rw [hinside]
      exact ofTokens_comma hf tags hcomma hclosed behind
    simp only [found, hparams]
    rfl

end FunctionPhrase

theorem Found.entry_written (d : Found) (comment : Doc.Comment) (file written : String) :
    { d with written }.entry comment file
      = { d.entry comment file with fullDeclaration := written } := rfl

end PawnApi.Declaration

namespace PawnApi.Include

open PawnApi.Source PawnApi.Declaration PawnApi.Param

/-! ## A comma of a documented declaration -/

/-- A comma between the texts `a` and `b` at which the parameter list of a documented function
    is cut. The function comes first behind its block, and there is no other block. -/
structure ListComma (a b : List Char) where
  lead : List Char
  block : List Char
  /-- The code before the comma. -/
  code : List Char
  phrase : FunctionPhrase
  /-- The tokens of the parameter list before the comma. -/
  before : List Token
  comma : Token
  behind : List Token
  append_eq : a = lead ++ (block ++ code)
  outline_eq : outline (a ++ ',' :: b) = ⟨lead, [⟨block, code ++ ',' :: b⟩], []⟩
  /-- The comma stands in no comment or literal. -/
  isOutside : (scan a).mode.isOutside = true
  tokens_eq : tokens (Text.trimStart (code ++ ',' :: b)) = phrase.whole
  inside_eq : phrase.params.inside = before ++ comma :: behind
  before_eq : tokens (Text.trimStart code) = phrase.front ++ before
  /-- No bracket and no angle is open before the comma. -/
  isClosed : (nesting {} false before).isClosed = true

namespace ListComma

variable {a b : List Char} (h : ListComma a b)

theorem trimStart_code (y : List Char) :
    Text.trimStart (h.code ++ ',' :: y) = Text.trimStart h.code ++ ',' :: y :=
  Text.trimStart_append (by decide) h.code y

theorem opensLine_head : h.phrase.head.opensLine = true := by
  have hlawful := lawful_lexFrom true (Text.trimStart (h.code ++ ',' :: b))
  rw [show (lexFrom true _).tokens = h.phrase.whole from h.tokens_eq] at hlawful
  exact hlawful.1.opensLine_eq

/-- What is found in the code, as it is and with a comment behind the comma. -/
theorem find?_comment (tags : Doc.Tags) :
    find? tags (tokens (Text.trimStart (h.code ++ ',' :: b))) = some (h.phrase.found tags) ∧
      ∀ k, ClosedComment k → ∃ written,
        find? tags (tokens (Text.trimStart (h.code ++ ',' :: (k ++ b))))
          = some { h.phrase.found tags with written } := by
  have hscan : (scan (Text.trimStart h.code)).mode.isOutside = true := by
    rw [scan_code_of_outline_comma h.isOutside h.append_eq h.outline_eq]
    exact h.isOutside
  obtain ⟨c, hc, htokens⟩ := exists_tokens_comma hscan
  refine ⟨?_, fun k hk => ?_⟩
  · rw [h.tokens_eq]
    exact h.phrase.find?_whole h.opensLine_head tags
  · -- the comma and what follows it are where the phrase has them
    have hwhole := h.tokens_eq
    rw [h.trimStart_code, htokens, h.phrase.whole_eq_front, h.inside_eq, h.before_eq,
      List.append_assoc, List.append_assoc, List.append_cancel_left_eq,
      List.append_cancel_left_eq, List.cons_append] at hwhole
    obtain ⟨hcomma, hrest⟩ := List.cons.inj hwhole
    obtain ⟨q, hhead, hq, hfound⟩ := h.phrase.exists_modifyHead h.inside_eq (hcomma ▸ hc) h.isClosed
      (keepsText_behind k)
    obtain ⟨written, hwritten⟩ := hfound tags
    refine ⟨written, ?_⟩
    have hnew : tokens (Text.trimStart (h.code ++ ',' :: (k ++ b))) = q.whole := by
      rw [h.trimStart_code, htokens, tokens_comment hk, hrest, h.before_eq, hq, hcomma,
        List.append_assoc]
    rw [hnew, ← hwritten]
    apply q.find?_whole
    rw [hhead]
    exact h.opensLine_head

end ListComma

/-- A comment is read as one whatever ends its lines. -/
theorem lfEndings_comment (text b : List Char) :
    Text.lfEndings ('/' :: '*' :: (text ++ '*' :: '/' :: b))
      = '/' :: '*' :: (Text.lfEndings text ++ ['*', '/']) ++ Text.lfEndings b := by
  have hopen := Text.lfEndings_append (a := ['/', '*']) (by decide) (text ++ '*' :: '/' :: b)
  have hclose := Text.lfEndings_append (a := ['/']) (by decide) b
  rw [show '/' :: '*' :: (text ++ '*' :: '/' :: b)
        = ['/', '*'] ++ (text ++ '*' :: '/' :: b) from rfl,
    hopen, Text.lfEndings_append_cons (by decide) (by decide),
    show '/' :: b = ['/'] ++ b from rfl, hclose]
  simp

theorem exists_head_lfEndings {text : List Char} (h : ∃ c ∈ text.head?, c ≠ '*') :
    ∃ c ∈ (Text.lfEndings text).head?, c ≠ '*' := by
  obtain ⟨c, hc, hstar⟩ := h
  refine ⟨if c = '\r' then '\n' else c, ?_, ?_⟩
  · rw [Text.head?_lfEndings, Option.mem_def.1 hc]
    rfl
  · split
    · decide
    · exact hstar

/-- **Comments in parameter lists.** A block comment directly behind a top-level comma of the
    parameter list of a documented function changes nothing else than the declaration as
    written, unless it opens a documentation block outside all braces. -/
theorem parse_comment_in_list {a b text : List Char}
    (h : ListComma (Text.lfEndings a) (Text.lfEndings b)) (htext : ¬ ['*', '/'] <:+: text)
    (hdoc : (scan (Text.lfEndings a)).depth = 0 → ∃ c ∈ text.head?, c ≠ '*') (file : String) :
    ∃ (e : Entry) (fullDeclaration : String),
      (∃ kind type params, e.shape = .function kind type params) ∧
      parse (a ++ ',' :: b) file = [e] ∧
      parse (a ++ ',' :: ('/' :: '*' :: (text ++ '*' :: '/' :: b))) file
        = [{ e with fullDeclaration }] := by
  have hcomma : ∀ z, Text.lfEndings (a ++ ',' :: z) = Text.lfEndings a ++ ',' :: Text.lfEndings z :=
    Text.lfEndings_append_cons (by decide) (by decide) a
  have htext' : ¬ ['*', '/'] <:+: Text.lfEndings text :=
    fun hi => htext (Text.infix_of_infix_lfEndings (by decide) (by decide) hi)
  have houtline := outline_insert h.isOutside h.append_eq h.outline_eq
    (outlineFrom_comment htext' (fun hd => exists_head_lfEndings (hdoc hd)) (Text.lfEndings b))
  -- each outline has one chunk, and the entry of a chunk is what is found in its code
  have hparse : ∀ {z : List Char} {d : Found},
      outline (Text.lfEndings a ++ ',' :: Text.lfEndings z)
        = ⟨h.lead, [⟨h.block, h.code ++ ',' :: Text.lfEndings z⟩], []⟩ →
      find? (Doc.Comment.ofBlock h.block).tags
        (tokens (Text.trimStart (h.code ++ ',' :: Text.lfEndings z))) = some d →
      parse (a ++ ',' :: z) file = [d.entry (Doc.Comment.ofBlock h.block) file] := by
    intro z d ho hd
    have hentry : entryOf file ⟨h.block, h.code ++ ',' :: Text.lfEndings z⟩
        = some (d.entry (Doc.Comment.ofBlock h.block) file) := by
      rw [entryOf, classify_eq, Chunk.code, hd]
      rfl
    rw [parse, hcomma, chunks, ho, List.filterMap_cons_some hentry]
    rfl
  obtain ⟨hold, hnew⟩ := h.find?_comment (Doc.Comment.ofBlock h.block).tags
  obtain ⟨written, hwritten⟩ := hnew _ (closedComment_of_unclosed htext')
  rw [← lfEndings_comment] at houtline hwritten
  refine ⟨_, written, ⟨_, _, _, rfl⟩, hparse h.outline_eq hold, ?_⟩
  rw [hparse houtline hwritten, Found.entry_written]

/-- The comma between two parameters of a function that a block documents. -/
def sampleComma : ListComma (Text.lfEndings "/** F. */\r\nnative void f(int a".toList)
    (Text.lfEndings " int b);".toList) where
  lead := []
  block := "/** F. */".toList
  code := "\nnative void f(int a".toList
  phrase :=
    { head := ⟨[], .ident, "native".toList, true⟩
      first := .native
      more := []
      marker := none
      type := ⟨⟨[' '], .ident, "void".toList, false⟩, [], rfl⟩
      name := ⟨[' '], .ident, ['f'], false⟩
      params := ⟨⟨[], .punct, ['('], false⟩,
        [⟨[], .ident, "int".toList, false⟩, ⟨[' '], .ident, ['a'], false⟩,
          ⟨[], .punct, [','], false⟩, ⟨[' '], .ident, "int".toList, false⟩,
          ⟨[' '], .ident, ['b'], false⟩],
        ⟨[], .punct, [')'], false⟩, rfl, by decide, rfl⟩
      ending := ⟨[], .punct, [';'], false⟩
      rest := []
      isWord_head := by decide
      isModifier_more := List.forall_mem_nil IsModifier
      isWord_marker := nofun
      not_isModifier_type := fun _ => not_isModifier_iff.2 ⟨by decide, by decide⟩
      kind_name := rfl
      isPunct_ending := Or.inl rfl }
  before := [⟨[], .ident, "int".toList, false⟩, ⟨[' '], .ident, ['a'], false⟩]
  comma := ⟨[], .punct, [','], false⟩
  behind := [⟨[' '], .ident, "int".toList, false⟩, ⟨[' '], .ident, ['b'], false⟩]
  append_eq := by decide +kernel
  outline_eq := by decide +kernel
  isOutside := by decide +kernel
  tokens_eq := by decide +kernel
  inside_eq := rfl
  before_eq := by decide +kernel
  isClosed := by decide

/-- A comment with brackets, a comma and a quote in it. -/
theorem parse_comment_in_list_brackets :
    ∃ (e : Entry) (fullDeclaration : String),
      parse ("/** F. */\r\nnative void f(int a".toList ++ ',' :: " int b);".toList) "f.inc" = [e] ∧
      parse ("/** F. */\r\nnative void f(int a".toList ++
          ',' :: ('/' :: '*' :: (" )\x7b, <\" ".toList ++ '*' :: '/' :: " int b);".toList))) "f.inc"
        = [{ e with fullDeclaration }] := by
  have htext : ¬ ['*', '/'] <:+: " )\x7b, <\" ".toList := by decide +kernel
  obtain ⟨e, fullDeclaration, -, hold, hnew⟩ :=
    parse_comment_in_list (a := "/** F. */\r\nnative void f(int a".toList)
      (b := " int b);".toList) sampleComma htext (fun _ => ⟨' ', rfl, by decide⟩) "f.inc"
  exact ⟨e, fullDeclaration, hold, hnew⟩

/-- A documentation comment behind the same comma ends the code of the block before it, so
    that neither block documents a declaration. -/
theorem parse_documentation_in_list :
    Nonempty (ListComma (Text.lfEndings "/** F. */\r\nnative void f(int a".toList)
      (Text.lfEndings " int b);".toList)) ∧
    ¬ ['*', '/'] <:+: "* A. ".toList ∧
    (parse ("/** F. */\r\nnative void f(int a".toList ++ ',' :: " int b);".toList) "").length = 1 ∧
    parse ("/** F. */\r\nnative void f(int a".toList ++
      ',' :: ('/' :: '*' :: ("* A. ".toList ++ '*' :: '/' :: " int b);".toList))) "" = [] :=
  ⟨⟨sampleComma⟩, by decide, by decide +kernel, by decide +kernel⟩

end PawnApi.Include
