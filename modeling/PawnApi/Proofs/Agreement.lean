/-
  PawnApi.Proofs.Agreement

  The outline of a text and its tokens agree.

  The outline looks for documentation blocks character by character, while the lexer takes
  every comment into a gap between two tokens. Each has its own idea of comments, literals
  and braces, and they come out the same (`outline_agrees`): the blocks of the outline are
  the documentation comments in the gaps outside all braces, the text behind each block
  has the tokens that stand there, and a block with its code is outlined alone as it is in
  the whole text. A token and an item of a gap are one step of the outline each
  (`TokenForm.outlineFrom_eq`, `GapItem.outlineFrom_cases`), and the rest follows by
  induction over gaps and tokens.
-/
import PawnApi.Proofs.Spans
import PawnApi.Proofs.Spelling
import PawnApi.Proofs.Trimming

namespace PawnApi.Source

open PawnApi.Declaration (depthAfter)

/-! ## Where the blocks of an outline stand -/

namespace Outline

/-- Blocks, each with the text before it, if `before` stands in front of the first chunk. -/
def sitesFrom (before : List Char) : List Chunk → List (List Char × List Char)
  | [] => []
  | c :: cs => (before, c.comment) :: sitesFrom (before ++ (c.comment ++ c.body)) cs

/-- The blocks of an outline, each with the text before it. -/
def sites (o : Outline) : List (List Char × List Char) :=
  sitesFrom o.lead o.chunks

/-- The byte offsets at which the blocks start and end. -/
def spans (o : Outline) : List (Nat × Nat) :=
  o.sites.map fun p => (byteSize p.1, byteSize p.1 + byteSize p.2)

/-- The byte offset at which the outline ends. -/
def limit (o : Outline) : Nat :=
  byteSize (o.lead ++ o.chunks.flatMap fun c => c.comment ++ c.body)

/-- The byte offset at which a chunk ends: where the next block starts, or the limit. -/
def finish (o : Outline) (i : Nat) : Nat :=
  (o.spans[i + 1]?.map Prod.fst).getD o.limit

theorem sitesFrom_append_left (s before : List Char) (cs : List Chunk) :
    sitesFrom (s ++ before) cs = (sitesFrom before cs).map fun p => (s ++ p.1, p.2) := by
  induction cs generalizing before with
  | nil => rfl
  | cons c cs ih => rw [sitesFrom, List.append_assoc, ih, sitesFrom, List.map_cons]

theorem sitesFrom_append (before : List Char) (cs ds : List Chunk) :
    sitesFrom before (cs ++ ds) = sitesFrom before cs
      ++ sitesFrom (before ++ cs.flatMap fun c => c.comment ++ c.body) ds := by
  induction cs generalizing before with
  | nil => simp [sitesFrom]
  | cons c cs ih => simp [sitesFrom, ih]

@[simp] theorem length_sitesFrom (before : List Char) (cs : List Chunk) :
    (sitesFrom before cs).length = cs.length := by
  induction cs generalizing before with
  | nil => rfl
  | cons c cs ih => simp [sitesFrom, ih]

@[simp] theorem length_spans (o : Outline) : o.spans.length = o.chunks.length := by
  simp [spans, sites]

theorem mem_sites_push {s before comment : List Char} {o : Outline} :
    (before, comment) ∈ (o.push s).sites ↔
      ∃ b, (b, comment) ∈ o.sites ∧ before = s ++ b := by
  rw [sites, push, sitesFrom_append_left, List.mem_map]
  constructor
  · rintro ⟨⟨b, c⟩, hb, heq⟩
    obtain ⟨rfl, rfl⟩ := Prod.mk.inj heq
    exact ⟨b, hb, rfl⟩
  · rintro ⟨b, hb, rfl⟩
    exact ⟨(b, comment), hb, rfl⟩

theorem mem_sites_document {s before comment : List Char} {o : Outline} :
    (before, comment) ∈ (o.document s).sites ↔
      (before = [] ∧ comment = s) ∨ ∃ b, (b, comment) ∈ o.sites ∧ before = s ++ b := by
  -- behind its block an outline goes on as behind any other text
  have htail : sitesFrom ([] ++ (s ++ o.lead)) o.chunks = (o.push s).sites := rfl
  rw [sites, document, sitesFrom, htail, List.mem_cons, mem_sites_push, Prod.mk.injEq]

theorem byteSize_le_of_mem_sitesFrom {before : List Char} {cs : List Chunk}
    {p : List Char × List Char} (h : p ∈ sitesFrom before cs) :
    byteSize before ≤ byteSize p.1 := by
  rw [← List.append_nil before, sitesFrom_append_left, List.mem_map] at h
  obtain ⟨q, -, rfl⟩ := h
  rw [byteSize_append]
  exact Nat.le_add_right _ _

/-- Blocks stand one behind the other. -/
theorem pairwise_spans (o : Outline) : o.spans.Pairwise fun p q => p.2 ≤ q.1 := by
  rw [spans, sites, List.pairwise_map]
  generalize o.lead = before
  induction o.chunks generalizing before with
  | nil => exact .nil
  | cons c cs ih =>
    refine .cons (fun p hp => ?_) (ih _)
    have hle := byteSize_le_of_mem_sitesFrom hp
    simp only [byteSize_append] at hle ⊢
    omega

/-- The offsets of a chunk, from the text before it. -/
theorem spans_of_chunks_eq {o : Outline} {cs ds : List Chunk} {c : Chunk}
    (h : o.chunks = cs ++ c :: ds) {before : List Char}
    (hb : before = o.lead ++ cs.flatMap fun c => c.comment ++ c.body) :
    o.spans[cs.length]? = some (byteSize before, byteSize before + byteSize c.comment) ∧
      o.finish cs.length = byteSize before + byteSize c.comment + byteSize c.body := by
  have hspans : o.spans = (sitesFrom o.lead cs).map (fun p => (byteSize p.1, byteSize p.1
      + byteSize p.2)) ++ (byteSize before, byteSize before + byteSize c.comment)
        :: (sitesFrom (before ++ (c.comment ++ c.body)) ds).map fun p =>
          (byteSize p.1, byteSize p.1 + byteSize p.2) := by
    rw [spans, sites, h, sitesFrom_append, ← hb, List.map_append, sitesFrom, List.map_cons]
  have hlen : ((sitesFrom o.lead cs).map fun p =>
      (byteSize p.1, byteSize p.1 + byteSize p.2)).length = cs.length := by simp
  constructor
  · rw [hspans, ← hlen, List.getElem?_append_right (Nat.le_refl _), Nat.sub_self,
      List.getElem?_cons_zero]
  · rw [finish, hspans, ← hlen, List.getElem?_append_right (Nat.le_add_right _ _),
      Nat.add_sub_cancel_left, List.getElem?_cons_succ]
    cases ds with
    | nil =>
      have hlimit : o.limit = byteSize (before ++ (c.comment ++ c.body)) := by
        rw [limit, h, hb]
        simp
      rw [hlimit]
      simp [sitesFrom, Nat.add_assoc]
    | cons c' ds => simp [sitesFrom, Nat.add_assoc]

end Outline

/-! ## One step of an outline -/

/-- An outline passes over a token, and counts the brace that it may be. -/
theorem TokenForm.outlineFrom_eq {t : Token} {after : List Char}
    (h : TokenForm after t.kind t.text) (d : Nat) :
    outlineFrom d (t.text ++ after) = (outlineFrom (depthAfter d t) after).push t.text := by
  obtain ⟨gap, kind, text, opensLine⟩ := t
  have word : ∀ w : List Char, (∀ e ∈ w, isNumberChar e = true) →
      outlineFrom d (w ++ after) = (outlineFrom d after).push w := by
    intro w hw
    refine outlineFrom_append_of_plain (fun e he => ?_) d after
    exact ⟨ne_of_isNumberChar (hw e he) (by decide), ne_of_isNumberChar (hw e he) (by decide),
      ne_of_isNumberChar (hw e he) (by decide), ne_of_isNumberChar (hw e he) (by decide),
      ne_of_isNumberChar (hw e he) (by decide)⟩
  simp only at h ⊢
  cases h with
  | @ident c w hc hw _ =>
    refine word (c :: w) fun e he => ?_
    rcases List.mem_cons.1 he with rfl | he
    · exact isNumberChar_of_isIdentChar (isIdentChar_of_isLetter hc)
    · exact isNumberChar_of_isIdentChar (hw e he)
  | @number c w hc hw _ =>
    refine word (c :: w) fun e he => ?_
    rcases List.mem_cons.1 he with rfl | he
    · exact isNumberChar_of_isDigit hc
    · exact hw e he
  | @str r hr =>
    rw [List.cons_append, outlineFrom_cons d rfl, if_pos (Or.inl rfl),
      hr.splitLiteral (by decide) (by decide)]
    rfl
  | @char r hr =>
    rw [List.cons_append, outlineFrom_cons d rfl, if_pos (Or.inr rfl),
      hr.splitLiteral (by decide) (by decide)]
    rfl
  | @punct c _ _ hq ha _ ho =>
    have hd : depthAfter d ⟨gap, .punct, [c], opensLine⟩ = braceDepth d c := by
      simp [depthAfter, braceDepth, Token.isPunct]
    rw [List.singleton_append, outlineFrom_cons d ho, if_neg (by simp [hq, ha]), hd]

/-- A documentation comment outside all braces makes a block. -/
theorem outlineFrom_doc {comment : List Char} (hc : ClosedComment comment)
    (ho : ['/', '*', '*'] <+: comment) (after : List Char) :
    outlineFrom 0 (comment ++ after) = (outlineFrom 0 after).document comment := by
  obtain ⟨body, rfl, hbody⟩ := hc.exists_eq
  obtain ⟨r, hr⟩ := ho
  obtain rfl : '*' :: r = body := by simpa using hr
  exact (outlineFrom_block 0 (hbody after)).trans (if_pos ⟨rfl, rfl⟩)

/-- An outline passes over an item of a gap, makes a block of it, or ends with it. -/
theorem GapItem.outlineFrom_cases {after item : List Char} (h : GapItem after item) (d : Nat) :
    outlineFrom d (item ++ after) = (outlineFrom d after).push item ∨
    (d = 0 ∧ ClosedComment item ∧ ['/', '*', '*'] <+: item ∧
      outlineFrom d (item ++ after) = (outlineFrom d after).document item) ∨
    (after = [] ∧ UnclosedComment item ∧
      outlineFrom d (item ++ after) = ⟨[], [], item⟩) := by
  cases h with
  | @space c hc =>
    refine Or.inl (outlineFrom_append_of_isSpace (fun e he => ?_) d after)
    rw [List.mem_singleton.1 he]
    exact hc
  | @line body hb ha =>
    left
    rw [List.cons_append, List.cons_append, outlineFrom_line,
      splitLine_append_of_endOfLine hb ha]
  | block hc =>
    obtain ⟨body, rfl, hbody⟩ := hc.exists_eq
    have hstep := outlineFrom_block d (hbody after)
    by_cases hdoc : d = 0 ∧ (body ++ after).head? = some '*'
    · rw [if_pos hdoc] at hstep
      obtain ⟨hd, hstar⟩ := hdoc
      refine Or.inr (Or.inl ⟨hd, hc, ?_, hstep⟩)
      -- the body has a character of its own, which is the star
      cases body with
      | nil => exact absurd rfl (ne_nil_of_closeComment? (hbody after))
      | cons e body =>
        obtain rfl : e = '*' := by simpa using hstar
        exact ⟨body, rfl⟩
    · rw [if_neg hdoc] at hstep
      exact Or.inl hstep
  | unclosed hc ha =>
    subst ha
    obtain ⟨body, rfl, hbody⟩ := hc.exists_eq
    refine Or.inr (Or.inr ⟨rfl, hc, ?_⟩)
    rw [List.append_nil]
    exact outlineFrom_of_closeComment?_eq_none d hbody

/-- An item of a gap stays one when more text follows what already follows it. -/
theorem GapItem.extend {after item : List Char} (h : GapItem after item) (ha : after ≠ [])
    (x : List Char) : GapItem (after ++ x) item := by
  cases h with
  | space hc => exact .space hc
  | line hb hl =>
    refine .line hb ?_
    rcases hl with rfl | ⟨r, rfl⟩
    · exact absurd rfl ha
    · exact Or.inr ⟨r ++ x, rfl⟩
  | block hc => exact .block hc
  | unclosed _ hn => exact absurd hn ha

theorem IsGap.extend {after gap : List Char} (h : IsGap after gap) (ha : after ≠ [])
    (x : List Char) : IsGap (after ++ x) gap := by
  induction h with
  | nil => exact .nil
  | @cons item rest hi _ ih =>
    refine .cons ?_ ih
    rw [← List.append_assoc]
    exact hi.extend (by simp [ha]) x

/-! ## Documentation comments in gaps -/

/-- `comment` is a documentation comment in a gap, with the gap `before` in front of it. -/
structure DocIn (gap before comment : List Char) : Prop where
  prefix_gap : before ++ comment <+: gap
  isGap : IsGap comment before
  closed : ClosedComment comment
  opens : ['/', '*', '*'] <+: comment

theorem DocIn.cons {gap before comment item after : List Char} (h : DocIn gap before comment)
    (hi : GapItem (gap ++ after) item) : DocIn (item ++ gap) (item ++ before) comment where
  prefix_gap := by
    rw [List.append_assoc]
    exact (List.prefix_append_right_inj _).2 h.prefix_gap
  isGap := .cons (hi.of_isPrefix (h.prefix_gap.trans (List.prefix_append _ _))) h.isGap
  closed := h.closed
  opens := h.opens

/-- A gap in front of a text keeps the blocks of the text. -/
theorem IsGap.mem_sites {after gap : List Char} (h : IsGap after gap) {d : Nat}
    {before comment : List Char} (hm : (before, comment) ∈ (outlineFrom d after).sites) :
    (gap ++ before, comment) ∈ (outlineFrom d (gap ++ after)).sites := by
  induction h with
  | nil => exact hm
  | @cons item rest hi hr ih =>
    rw [List.append_assoc, List.append_assoc]
    rcases hi.outlineFrom_cases d with heq | ⟨-, -, -, heq⟩ | ⟨hn, -, -⟩
    · rw [heq, Outline.mem_sites_push]
      exact ⟨_, ih, rfl⟩
    · rw [heq, Outline.mem_sites_document]
      exact Or.inr ⟨_, ih, rfl⟩
    · -- nothing follows a comment that is never closed
      rw [hn, outlineFrom] at ih
      simp [Outline.sites, Outline.sitesFrom] at ih

/-- The blocks of a gap and of the text behind it: outside all braces each documentation
    comment of the gap is one. -/
theorem IsGap.mem_sites_iff {after gap : List Char} (h : IsGap after gap) {d : Nat}
    {before comment : List Char} :
    (before, comment) ∈ (outlineFrom d (gap ++ after)).sites ↔
      (∃ b, (b, comment) ∈ (outlineFrom d after).sites ∧ before = gap ++ b) ∨
        (d = 0 ∧ DocIn gap before comment) := by
  constructor
  · intro hm
    induction h generalizing before with
    | nil => exact Or.inl ⟨before, hm, rfl⟩
    | @cons item rest hi hr ih =>
      rw [List.append_assoc] at hm
      -- a block behind the item is one of the rest of the gap, or of the text
      have behind : (∃ b, (b, comment) ∈ (outlineFrom d (rest ++ after)).sites ∧
          before = item ++ b) →
          (∃ b, (b, comment) ∈ (outlineFrom d after).sites ∧ before = item ++ rest ++ b) ∨
            (d = 0 ∧ DocIn (item ++ rest) before comment) := by
        rintro ⟨b, hb, rfl⟩
        rcases ih hb with ⟨b', hb', rfl⟩ | ⟨hd, hdoc⟩
        · exact Or.inl ⟨b', hb', by rw [List.append_assoc]⟩
        · exact Or.inr ⟨hd, hdoc.cons hi⟩
      rcases hi.outlineFrom_cases d with heq | ⟨hd, hclosed, hopens, heq⟩ | ⟨-, -, heq⟩
      · rw [heq, Outline.mem_sites_push] at hm
        exact behind hm
      · rw [heq, Outline.mem_sites_document] at hm
        rcases hm with ⟨rfl, rfl⟩ | hm
        · exact Or.inr ⟨hd, List.prefix_append _ _, .nil, hclosed, hopens⟩
        · exact behind hm
      · rw [heq] at hm
        simp [Outline.sites, Outline.sitesFrom] at hm
  · rintro (⟨b, hb, rfl⟩ | ⟨rfl, ⟨back, rfl⟩, hgap, hclosed, hopens⟩)
    · exact h.mem_sites hb
    · have hne : comment ≠ [] := by
        rintro rfl
        simp at hopens
      have hsite : ([], comment) ∈ (outlineFrom 0 (comment ++ (back ++ after))).sites := by
        rw [outlineFrom_doc hclosed hopens, Outline.mem_sites_document]
        exact Or.inl ⟨rfl, rfl⟩
      have hm := (hgap.extend hne (back ++ after)).mem_sites hsite
      simpa using hm

theorem Token.render_cons_append (t : Token) (ts : List Token) (tail : List Char) :
    Token.render (t :: ts) ++ tail = t.gap ++ (t.text ++ (Token.render ts ++ tail)) := by
  simp

/-- The gap before the first of some tokens, or behind them if there are none. -/
def leadGap (ts : List Token) (tail : List Char) : List Char :=
  match ts with
  | [] => tail
  | t :: _ => t.gap

/-- The blocks of a text are the documentation comments in its gaps, outside all braces. -/
theorem Lawful.mem_sites_iff {first : Bool} {ts : List Token} {tail : List Char}
    (h : Lawful first ts tail) {d : Nat} {before comment : List Char} :
    (before, comment) ∈ (outlineFrom d (Token.render ts ++ tail)).sites ↔
      ∃ lead rest front, ts = lead ++ rest ∧ DocIn (leadGap rest tail) front comment ∧
        before = Token.render lead ++ front ∧ lead.foldl depthAfter d = 0 := by
  induction ts generalizing first d before with
  | nil =>
    have hgap : (before, comment) ∈ (outlineFrom d (tail ++ [])).sites ↔ _ :=
      IsGap.mem_sites_iff h
    have hnil : (outlineFrom d []).sites = [] := by
      rw [outlineFrom]
      rfl
    simp only [List.append_nil, hnil, List.not_mem_nil, false_and, exists_false, false_or] at hgap
    rw [Token.render_nil, List.nil_append, hgap]
    constructor
    · rintro ⟨hd, hdoc⟩
      exact ⟨[], [], before, rfl, hdoc, rfl, hd⟩
    · rintro ⟨lead, rest, front, heq, hdoc, rfl, hd⟩
      obtain ⟨rfl, rfl⟩ := List.append_eq_nil_iff.1 heq.symm
      exact ⟨hd, hdoc⟩
  | cons t ts ih =>
    obtain ⟨hfits, hts⟩ := h
    rw [Token.render_cons_append, hfits.isGap.mem_sites_iff, hfits.form.outlineFrom_eq]
    simp only [Outline.mem_sites_push]
    constructor
    · rintro (⟨b, ⟨b', hb', rfl⟩, rfl⟩ | ⟨hd, hdoc⟩)
      · obtain ⟨lead, rest, front, rfl, hdoc, rfl, hd⟩ := (ih hts).1 hb'
        exact ⟨t :: lead, rest, front, rfl, hdoc, by simp, hd⟩
      · exact ⟨[], t :: ts, before, rfl, hdoc, rfl, hd⟩
    · rintro ⟨lead, rest, front, heq, hdoc, rfl, hd⟩
      rcases List.cons_eq_append_iff.1 heq with ⟨rfl, rfl⟩ | ⟨lead', rfl, rfl⟩
      · exact Or.inr ⟨hd, hdoc⟩
      · exact Or.inl ⟨_, ⟨_, (ih hts).2 ⟨lead', rest, front, rfl, hdoc, rfl, hd⟩, rfl⟩, by simp⟩

/-- `comment` is a documentation comment between tokens of a text, outside all braces, with
    `before` in front of it. -/
def DocAt (s before comment : List Char) : Prop :=
  ∃ lead rest front, tokens s = lead ++ rest ∧ DocIn (leadGap rest (lex s).tail) front comment ∧
    before = Token.render lead ++ front ∧ lead.foldl depthAfter 0 = 0

theorem mem_sites_outline_iff {s before comment : List Char} :
    (before, comment) ∈ (outline s).sites ↔ DocAt s before comment := by
  have h : (before, comment) ∈ (outlineFrom 0 (lex s).text).sites ↔ DocAt s before comment :=
    (lawful_lexFrom true s).mem_sites_iff
  rwa [Lexed.text_lex] at h

/-! ## Where an outline ends -/

theorem IsGap.rest_outlineFrom {after gap : List Char} (h : IsGap after gap) (ha : after ≠ [])
    (d : Nat) : (outlineFrom d (gap ++ after)).rest = (outlineFrom d after).rest := by
  induction h with
  | nil => rfl
  | @cons item rest hi hr ih =>
    rw [List.append_assoc]
    rcases hi.outlineFrom_cases d with heq | ⟨-, -, -, heq⟩ | ⟨hn, -, -⟩
    · rw [heq]
      exact ih
    · rw [heq]
      exact ih
    · exact absurd (List.append_eq_nil_iff.1 hn).2 ha

/-- A gap at the end of a text is outlined up to the comment that is never closed. -/
theorem IsGap.rest_outlineFrom_tail {tail : List Char} (h : IsGap [] tail) (d : Nat) :
    (outlineFrom d tail).rest = [] ∨
      ∃ front, tail = front ++ (outlineFrom d tail).rest ∧
        IsGap (outlineFrom d tail).rest front ∧ UnclosedComment (outlineFrom d tail).rest := by
  induction h with
  | nil =>
    left
    rw [outlineFrom]
  | @cons item rest hi hr ih =>
    rw [List.append_nil] at hi
    -- what is left out behind the item is left out of the whole
    have behind : (outlineFrom d (item ++ rest)).rest = (outlineFrom d rest).rest →
        (outlineFrom d (item ++ rest)).rest = [] ∨ ∃ front,
          item ++ rest = front ++ (outlineFrom d (item ++ rest)).rest ∧
            IsGap (outlineFrom d (item ++ rest)).rest front ∧
            UnclosedComment (outlineFrom d (item ++ rest)).rest := by
      intro heq
      rw [heq]
      rcases ih with hn | ⟨front, hfront, hgap, hun⟩
      · exact Or.inl hn
      · refine Or.inr ⟨item ++ front, ?_, .cons ?_ hgap, hun⟩
        · rw [List.append_assoc, ← hfront]
        · rw [← hfront]
          exact hi
    rcases hi.outlineFrom_cases d with heq | ⟨-, -, -, heq⟩ | ⟨rfl, hun, heq⟩
    · exact behind (by rw [heq]; rfl)
    · exact behind (by rw [heq]; rfl)
    · rw [heq]
      exact Or.inr ⟨[], by simp, .nil, hun⟩

theorem Lawful.rest_outlineFrom {first : Bool} {ts : List Token} {tail : List Char}
    (h : Lawful first ts tail) (d : Nat) :
    (outlineFrom d (Token.render ts ++ tail)).rest
      = (outlineFrom (ts.foldl depthAfter d) tail).rest := by
  induction ts generalizing first d with
  | nil => rfl
  | cons t ts ih =>
    obtain ⟨hfits, hts⟩ := h
    have hne : t.text ++ (Token.render ts ++ tail) ≠ [] := by
      simp [hfits.form.ne_nil]
    rw [Token.render_cons_append, hfits.isGap.rest_outlineFrom hne, hfits.form.outlineFrom_eq,
      List.foldl_cons]
    exact ih hts (depthAfter d t)

/-- A text ends in a comment that is never closed, with `before` in front of it. -/
def UnclosedAt (s before comment : List Char) : Prop :=
  ∃ front, (lex s).tail = front ++ comment ∧ before = Token.render (tokens s) ++ front ∧
    IsGap comment front ∧ UnclosedComment comment

theorem byteSize_eq_limit_add (s : List Char) :
    byteSize s = (outline s).limit + byteSize (outline s).rest := by
  have htext := congrArg byteSize (Outline.text_outlineFrom 0 s)
  rw [Outline.text, byteSize_append] at htext
  exact htext.symm

theorem rest_outline (s : List Char) :
    (outline s).rest
      = (outlineFrom ((tokens s).foldl depthAfter 0) (lex s).tail).rest := by
  have hrest := (lawful_lexFrom true s).rest_outlineFrom 0
  have htext : Token.render (lexFrom true s).tokens ++ (lexFrom true s).tail = s :=
    Lexed.text_lex s
  rw [htext] at hrest
  exact hrest

theorem limit_of_unclosedAt {s before comment : List Char} (h : UnclosedAt s before comment) :
    (outline s).limit = byteSize before := by
  obtain ⟨front, htail, rfl, hgap, hun⟩ := h
  have hrest : (outline s).rest = comment := by
    obtain ⟨body, rfl, hbody⟩ := hun.exists_eq
    rw [rest_outline, htail, hgap.rest_outlineFrom (by simp),
      outlineFrom_of_closeComment?_eq_none _ hbody]
  have hsize := byteSize_eq_limit_add s
  have htext := congrArg byteSize (Lexed.text_lex s)
  rw [Lexed.text, htail] at htext
  rw [hrest] at hsize
  simp only [byteSize_append] at htext ⊢
  have hts : Token.render (lex s).tokens = Token.render (tokens s) := rfl
  rw [hts] at htext
  omega

theorem limit_eq_byteSize {s : List Char} (h : ¬ ∃ before comment, UnclosedAt s before comment) :
    (outline s).limit = byteSize s := by
  have htail : IsGap [] (lex s).tail := (lawful_iff.1 (lawful_lexFrom true s)).2
  have hsize := byteSize_eq_limit_add s
  have hrest : (outline s).rest = [] := by
    rw [rest_outline]
    rcases htail.rest_outlineFrom_tail ((tokens s).foldl depthAfter 0) with
      hn | ⟨front, hfront, hgap, hun⟩
    · exact hn
    · exact absurd ⟨_, _, front, hfront, rfl, hgap, hun⟩ h
  rw [hrest] at hsize
  exact hsize.symm

/-! ## Tokens on both sides of a seam -/

/-- The tokens of a text cut at a seam are those of its parts. Only the first token behind
    the seam may open a line in the part that it does not open in the whole. -/
theorem located_append {a b : List Char} (h : (scan a).CutsAt b) (hd : Detached a b) :
    ∃ bs, located (a ++ b) = located a ++ bs ∧ (∀ t ∈ bs, byteSize a ≤ t.start) ∧
      bs.modifyHead Located.opening
        = ((located b).map (Located.move (byteSize a))).modifyHead Located.opening := by
  have hsize : byteSize (Token.render (tokens a)) + byteSize (lex a).tail = byteSize a := by
    rw [← byteSize_append]
    exact congrArg byteSize (Lexed.text_lex a)
  obtain ⟨first, htokens⟩ : ∃ first, tokens (a ++ b) = tokens a
      ++ (lexFrom first b).tokens.modifyHead (Token.behind (lex a).tail) := by
    refine ⟨true && (tokens a).isEmpty, ?_⟩
    rw [← Lexed.tokens_behind]
    exact congrArg Lexed.tokens (lexFrom_append true h hd)
  rw [tokens_lexFrom] at htokens
  unfold located
  rw [htokens, locateFrom_append, map_move_locateFrom]
  refine ⟨_, rfl, ?_, ?_⟩
  · cases tokens b with
    | nil => simp
    | cons t ts =>
      intro x hx
      rw [List.modifyHead_cons, List.modifyHead_cons, locateFrom_cons, List.mem_cons] at hx
      rcases hx with rfl | hx
      · simp only [Token.behind, byteSize_append]
        omega
      · have hle := le_start_of_mem_locateFrom hx
        simp only [Token.behind, byteSize_append] at hle
        omega
  · cases tokens b with
    | nil => rfl
    | cons t ts =>
      have hn : 0 + byteSize (Token.render (tokens a)) + (byteSize (lex a).tail + byteSize t.gap)
          = 0 + byteSize a + byteSize t.gap := by omega
      simp only [List.modifyHead_cons, locateFrom_cons, Token.behind, byteSize_append,
        Located.opening, hn]

/-- The first token of a text opens its line. -/
theorem opening_located (s : List Char) :
    (located s).modifyHead Located.opening = located s := by
  have hlaw := lawful_lexFrom true s
  rw [located, tokens, lex]
  cases h : (lexFrom true s).tokens with
  | nil => rfl
  | cons t ts =>
    rw [h] at hlaw
    have hopens : t.opensLine = true := hlaw.1.opensLine_eq
    rw [locateFrom_cons, List.modifyHead_cons, Located.opening, hopens]

/-- Tokens are selected by their place alike, whether or not the first opens its line. -/
theorem opening_filter {p : Located → Bool} (hp : ∀ t : Located, p t.opening = p t)
    {l l' : List Located}
    (h : l.modifyHead Located.opening = l'.modifyHead Located.opening) :
    (l.filter p).modifyHead Located.opening = (l'.filter p).modifyHead Located.opening := by
  cases l with
  | nil =>
    cases l' with
    | nil => rfl
    | cons u us => simp at h
  | cons t ts =>
    cases l' with
    | nil => simp at h
    | cons u us =>
      simp only [List.modifyHead_cons, List.cons.injEq] at h
      obtain ⟨htu, rfl⟩ := h
      have hpu : p t = p u := by rw [← hp t, ← hp u, htu]
      rw [List.filter_cons, List.filter_cons, hpu]
      split
      · simp [htu]
      · rfl

/-- Whether a token lies between two byte offsets. -/
def Located.within (start stop : Nat) (t : Located) : Bool :=
  decide (start ≤ t.start ∧ t.stop ≤ stop)

theorem Located.within_iff {start stop : Nat} {t : Located} :
    t.within start stop = true ↔ start ≤ t.start ∧ t.stop ≤ stop :=
  decide_eq_true_iff

/-- A code between a complete part and a comment has the tokens that lie in it. -/
theorem located_within {front code rest : List Char} (hf : (scan front).mode = .code)
    (hd : Detached front (code ++ rest))
    (hr : rest = [] ∨ (scan code).mode = .code ∧ ∃ z, rest = '/' :: z) :
    (located code).map (Located.move (byteSize front))
      = ((located (front ++ (code ++ rest))).filter (Located.within (byteSize front)
          (byteSize front + byteSize code))).modifyHead Located.opening := by
  have hcut : (scan front).CutsAt (code ++ rest) := Or.inl hf
  obtain ⟨bs, hbs, -, hopen⟩ := located_append hcut hd
  obtain ⟨more, hmore, hle⟩ : ∃ more, located (code ++ rest) = located code ++ more ∧
      ∀ t ∈ more, byteSize code ≤ t.start := by
    rcases hr with rfl | ⟨hm, z, rfl⟩
    · exact ⟨[], by simp, by simp⟩
    · obtain ⟨more, hmore, hle, -⟩ := located_append (Or.inl hm) (Detached.slash code z)
      exact ⟨more, hmore, hle⟩
  have hlt : ∀ t ∈ located code ++ more, t.start < t.stop := by
    rw [← hmore]
    exact fun t ht => (slice_of_mem_located ht).1
  rw [hmore, List.map_append] at hopen
  -- the tokens before the code start too early, those behind it end too late
  have hfront : (located front).filter (Located.within (byteSize front)
      (byteSize front + byteSize code)) = [] := by
    rw [List.filter_eq_nil_iff]
    intro t ht hin
    obtain ⟨h₁, h₂, -⟩ := slice_of_mem_located ht
    have := (Located.within_iff.1 hin).1
    omega
  have hbehind : (more.map (Located.move (byteSize front))).filter (Located.within
      (byteSize front) (byteSize front + byteSize code)) = [] := by
    rw [List.filter_eq_nil_iff]
    intro t ht hin
    obtain ⟨u, hu, rfl⟩ := List.mem_map.1 ht
    have h₁ := hle u hu
    have h₂ := hlt u (List.mem_append_right _ hu)
    have h₃ : u.stop + byteSize front ≤ _ := (Located.within_iff.1 hin).2
    omega
  have hwithin : ((located code).map (Located.move (byteSize front))).filter (Located.within
      (byteSize front) (byteSize front + byteSize code))
      = (located code).map (Located.move (byteSize front)) := by
    rw [List.filter_eq_self]
    intro t ht
    obtain ⟨u, hu, rfl⟩ := List.mem_map.1 ht
    have hstop := (slice_of_mem_located hu).2.1
    rw [Located.within_iff]
    show byteSize front ≤ u.start + byteSize front ∧
      u.stop + byteSize front ≤ byteSize front + byteSize code
    omega
  have hopening : ((located code).map (Located.move (byteSize front))).modifyHead
      Located.opening = (located code).map (Located.move (byteSize front)) := by
    have hcode := opening_located code
    cases h : located code with
    | nil => rfl
    | cons t ts =>
      rw [h, List.modifyHead_cons, List.cons.injEq] at hcode
      exact congrArg (· :: _) (congrArg (Located.move (byteSize front)) hcode.1)
  rw [hbs, List.filter_append, hfront, List.nil_append, opening_filter (fun _ => rfl) hopen,
    List.filter_append, hwithin, hbehind, List.append_nil, hopening]

/-! ## Chunks in their places -/

/-- The text before the first block of an outline has no block of its own. -/
theorem outlineFrom_lead (d : Nat) (s : List Char) :
    outlineFrom d (outlineFrom d s).lead = ⟨(outlineFrom d s).lead, [], []⟩ := by
  -- in code before `rest`, the blocks of the lead would come in front of the others
  have main : ∀ lead rest : List Char, s = lead ++ rest → (outlineFrom d s).lead = lead →
      (Scan.run ⟨.code, d⟩ lead).mode = .code →
      (outlineFrom (Scan.run ⟨.code, d⟩ lead).depth rest).lead = [] →
      (outlineFrom d s).chunks
        = (outlineFrom (Scan.run ⟨.code, d⟩ lead).depth rest).chunks →
      outlineFrom d (outlineFrom d s).lead = ⟨(outlineFrom d s).lead, [], []⟩ := by
    intro lead rest hs hlead hm hnil hchunks
    have happ := outlineFrom_append (a := lead) (b := rest) (d := d) (Or.inl hm)
    rw [hlead]
    refine outlineFrom_of_chunks_eq_nil (by rw [hm]; rfl) ?_
    rw [← hs] at happ
    rw [happ, Outline.chunks_append hnil] at hchunks
    simpa using hchunks
  cases firstBlock d s with
  | none h =>
    rw [h]
    exact h
  | unclosed lead r hs hm hr h =>
    have hrest := outlineFrom_of_closeComment?_eq_none (Scan.run ⟨.code, d⟩ lead).depth hr
    exact main lead _ hs (by rw [h]) hm (by rw [hrest]) (by rw [h, hrest])
  | block lead r body after hs hl hr h =>
    have hrest := outlineFrom_block 0 hr
    rw [if_pos ⟨rfl, rfl⟩] at hrest
    refine main lead _ hs ?_ (congrArg Scan.mode hl) ?_ ?_
    · rw [h]
      simp [Outline.push, Outline.document]
    · rw [hl]
      exact lead_outlineFrom_doc r
    · rw [hl, hrest, h]
      rfl

/-- Blanks at the front of a text without blocks can be dropped. -/
theorem outlineFrom_trimStart {d : Nat} {s : List Char} (h : outlineFrom d s = ⟨s, [], []⟩) :
    outlineFrom d (Text.trimStart s) = ⟨Text.trimStart s, [], []⟩ := by
  have hsplit : s.takeWhile Text.isBlank ++ Text.trimStart s = s :=
    List.takeWhile_append_dropWhile
  have hplain : outlineFrom d (s.takeWhile Text.isBlank ++ Text.trimStart s)
      = (outlineFrom d (Text.trimStart s)).push (s.takeWhile Text.isBlank) := by
    refine outlineFrom_append_of_plain (fun c hc => ?_) d _
    have hb : Text.isBlank c = true := List.mem_takeWhile_imp hc
    exact ⟨ne_of_isBlank hb (by decide), ne_of_isBlank hb (by decide),
      ne_of_isBlank hb (by decide), ne_of_isBlank hb (by decide), ne_of_isBlank hb (by decide)⟩
  rw [hsplit, h] at hplain
  have hchunks := congrArg Outline.chunks hplain
  have hrest := congrArg Outline.rest hplain
  have htext := Outline.text_outlineFrom d (Text.trimStart s)
  simp only [Outline.push] at hchunks hrest
  rw [Outline.text, ← hchunks, ← hrest] at htext
  simp only [List.flatMap_nil, List.append_nil] at htext
  calc outlineFrom d (Text.trimStart s)
      = ⟨(outlineFrom d (Text.trimStart s)).lead, (outlineFrom d (Text.trimStart s)).chunks,
          (outlineFrom d (Text.trimStart s)).rest⟩ := rfl
    _ = ⟨Text.trimStart s, [], []⟩ := by rw [htext, ← hchunks, ← hrest]

/-- A chunk of an outline is made by a block of the whole text. -/
theorem exists_docBlock {d : Nat} {front s : List Char} {cs ds : List Chunk} {c : Chunk}
    (hf : scan front = ⟨.code, d⟩) (h : (outlineFrom d s).chunks = cs ++ c :: ds) :
    ∃ after, DocBlock (front ++ s)
        (front ++ ((outlineFrom d s).lead ++ cs.flatMap fun c => c.comment ++ c.body))
        c.comment after ∧
      c.body = (outlineFrom 0 after).lead := by
  induction cs generalizing d front s with
  | nil =>
    cases firstBlock d s with
    | none h' => simp [h'] at h
    | unclosed lead r hs hm hr h' => simp [h'] at h
    | block lead r body after hs hl hr h' =>
      rw [h'] at h ⊢
      obtain ⟨rfl, -⟩ := List.cons.inj h
      rw [hs]
      refine ⟨after, ?_, rfl⟩
      simpa [Outline.push, Outline.document] using DocBlock.of_firstBlock hf hl hr
  | cons c' cs ih =>
    cases firstBlock d s with
    | none h' => simp [h'] at h
    | unclosed lead r hs hm hr h' => simp [h'] at h
    | block lead r body after hs hl hr h' =>
      have hdoc := DocBlock.of_firstBlock hf hl hr
      have hscan := hdoc.scan_blanks (x := []) (by simp)
      rw [h'] at h ⊢
      obtain ⟨rfl, htail⟩ := List.cons.inj h
      obtain ⟨after', hdoc', hbody⟩ := ih hscan htail
      refine ⟨after', ?_, hbody⟩
      rw [hs, ← hdoc.append_eq]
      simpa [Outline.push, Outline.document] using hdoc'

/-- A chunk in a source text: its block from `start` to `stop`, then blanks up to `code`, and
    its code up to `finish`. -/
structure Chunk.InPlace (c : Chunk) (s : List Char) (start stop code finish : Nat) : Prop where
  start_lt : start < stop
  stop_le : stop ≤ code
  code_le : code ≤ finish
  comment_eq : slice s start stop = c.comment
  isBlank_of_mem : ∀ e ∈ slice s stop code, Text.isBlank e = true
  code_eq : slice s code finish = c.code
  isBlank_head : ∀ e ∈ c.code.head?, Text.isBlank e = false
  /-- The tokens of the code are the tokens that lie in it. -/
  located_eq : (located c.code).map (Located.move code)
    = ((located s).filter (Located.within code finish)).modifyHead Located.opening
  /-- The block and the code alone make the chunk again. -/
  chunks_eq : ∃ d, chunks (c.comment ++ c.code) = [d] ∧ d.comment = c.comment ∧ d.code = c.code

theorem DocBlock.inPlace {s before after : List Char} {c : Chunk}
    (h : DocBlock s before c.comment after) (hbody : c.body = (outlineFrom 0 after).lead) :
    ∃ code, c.InPlace s (byteSize before) (byteSize before + byteSize c.comment) code
      (byteSize before + byteSize c.comment + byteSize c.body) := by
  obtain ⟨rest, hafter, hrest⟩ := exists_lead_append 0 after
  rw [← hbody] at hafter hrest
  have hsplit : c.body.takeWhile Text.isBlank ++ c.code = c.body :=
    List.takeWhile_append_dropWhile
  have hblank : ∀ e ∈ c.body.takeWhile Text.isBlank, Text.isBlank e = true :=
    fun e he => List.mem_takeWhile_imp he
  have hdetached := h.detached_blanks hblank (c.code ++ rest)
  have hscan := h.scan_blanks hblank
  have hcode : Scan.run ⟨.code, 0⟩ c.body = scan c.code := by
    rw [← hsplit, Scan.run_of_isBlank hblank]
    rfl
  generalize c.body.takeWhile Text.isBlank = blanks at hsplit hblank hdetached hscan
  have hs : before ++ (c.comment ++ (blanks ++ (c.code ++ rest))) = s := by
    rw [← h.append_eq, hafter, ← hsplit, List.append_assoc]
  have hsize := congrArg byteSize hsplit
  rw [byteSize_append] at hsize
  have hhead := Text.isBlank_head_trimStart c.body
  have hs' : before ++ (c.comment ++ blanks) ++ (c.code ++ rest) = s := by
    rw [← hs]
    simp only [List.append_assoc]
  have hfinish : byteSize before + byteSize c.comment + byteSize c.body
      = byteSize (before ++ (c.comment ++ blanks)) + byteSize c.code := by
    simp only [byteSize_append]
    omega
  refine ⟨byteSize (before ++ (c.comment ++ blanks)), ?_, ?_, ?_, ?_, ?_, ?_, hhead, ?_, ?_⟩
  · have hpos := byteSize_pos (s := c.comment) (by rw [h.block_eq]; simp)
    omega
  · simp only [byteSize_append]
    omega
  · simp only [byteSize_append]
    omega
  · rw [← hs]
    exact slice_append _ _ _
  · have hslice := slice_append (before ++ c.comment) blanks (c.code ++ rest)
    rw [List.append_assoc, hs] at hslice
    simp only [byteSize_append] at hslice ⊢
    rw [← Nat.add_assoc, hslice]
    exact hblank
  · rw [hfinish, ← hs']
    exact slice_append _ _ _
  · rw [hcode] at hrest
    rw [hfinish, ← hs']
    exact located_within (congrArg Scan.mode hscan) hdetached hrest
  · have hclosed : ClosedComment c.comment := by
      rw [h.block_eq]
      exact closedComment_of_closeComment? h.closes
    have houtline : outlineFrom 0 c.code = ⟨c.code, [], []⟩ := by
      refine outlineFrom_trimStart ?_
      rw [hbody]
      exact outlineFrom_lead 0 after
    refine ⟨⟨c.comment, c.code⟩, ?_, rfl, Text.trimStart_eq_self hhead⟩
    rw [chunks, outline, outlineFrom_doc hclosed h.opens, houtline]
    rfl

/-- **Agreement.** The outline of a text and its tokens agree. The blocks of the outline are,
    in order, the documentation comments in the gaps between tokens, outside all braces. The
    outline ends where a comment starts that is never closed, or else with the text. The
    chunks make up the text from the first block on: a block, blanks and code each. The code
    of a chunk has the tokens that lie in it, and the chunk is outlined alone as it is. -/
theorem outline_agrees (s : List Char) :
    (outline s).spans.Pairwise (fun p q => p.2 ≤ q.1) ∧
    (∀ start stop, (start, stop) ∈ (outline s).spans ↔ ∃ before comment,
      DocAt s before comment ∧ start = byteSize before ∧
        stop = byteSize before + byteSize comment) ∧
    (∀ before comment, UnclosedAt s before comment → (outline s).limit = byteSize before) ∧
    ((¬ ∃ before comment, UnclosedAt s before comment) → (outline s).limit = byteSize s) ∧
    (outline s).spans.length = (chunks s).length ∧
    ∀ (i : Nat) (c : Chunk), (chunks s)[i]? = some c → ∃ start stop code,
      (outline s).spans[i]? = some (start, stop) ∧
        c.InPlace s start stop code ((outline s).finish i) := by
  refine ⟨Outline.pairwise_spans _, fun start stop => ?_, fun _ _ => limit_of_unclosedAt,
    limit_eq_byteSize, Outline.length_spans _, fun i c hc => ?_⟩
  · rw [Outline.spans, List.mem_map]
    constructor
    · rintro ⟨⟨before, comment⟩, hm, heq⟩
      obtain ⟨rfl, rfl⟩ := Prod.mk.inj heq
      exact ⟨before, comment, mem_sites_outline_iff.1 hm, rfl, rfl⟩
    · rintro ⟨before, comment, hdoc, rfl, rfl⟩
      exact ⟨(before, comment), mem_sites_outline_iff.2 hdoc, rfl⟩
  · obtain ⟨hi, hc'⟩ := List.getElem?_eq_some_iff.1 hc
    have hchunks : (outline s).chunks = (chunks s).take i ++ c :: (chunks s).drop (i + 1) := by
      rw [← hc', List.getElem_cons_drop, List.take_append_drop]
      rfl
    have hstart : scan [] = ⟨.code, 0⟩ := rfl
    obtain ⟨after, hdoc, hbody⟩ := exists_docBlock hstart hchunks
    obtain ⟨hspan, hfinish⟩ := Outline.spans_of_chunks_eq hchunks rfl
    obtain ⟨code, hplace⟩ := hdoc.inPlace hbody
    rw [List.length_take, Nat.min_eq_left (Nat.le_of_lt hi)] at hspan hfinish
    rw [hfinish]
    exact ⟨_, _, code, hspan, hplace⟩

end PawnApi.Source
