/-
  PawnApi.Proofs.Lexical

  The lexical grammar, stated without the lexer.

  `GapItem` says what a gap is made of and `TokenForm` what a token of each kind looks
  like, both in front of the text that follows, since a comment, a word or a literal
  reaches as far as that text allows. `Lawful` puts the two together for a whole list of
  tokens. The lexer finds the one list of tokens that spells its text by this grammar
  (`lexFrom_eq_iff`): each splitter is shown to be sound (what it cuts off has the form)
  and complete (what has the form is cut off).
-/
import PawnApi.Proofs.Seam

namespace PawnApi.Source

/-! ## Block comments -/

/-- A block comment that is closed: the only star-slash behind its opening is its end. -/
def ClosedComment (s : List Char) : Prop :=
  ∃ body, s = '/' :: '*' :: (body ++ ['*', '/']) ∧ ¬ ['*', '/'] <:+: body ++ ['*']

/-- A block comment that is never closed. -/
def UnclosedComment (s : List Char) : Prop :=
  ∃ body, s = '/' :: '*' :: body ∧ ¬ ['*', '/'] <:+: body

theorem infix_cons_iff_of_ne {c : Char} {r : List Char}
    (h : ∀ r', c = '*' → r = '/' :: r' → False) :
    ['*', '/'] <:+: c :: r ↔ ['*', '/'] <:+: r := by
  rw [List.infix_cons_iff]
  constructor
  · rintro (hp | hi)
    · obtain ⟨z, hz⟩ := hp
      obtain ⟨hc, hr⟩ := List.cons.inj hz
      exact absurd hr.symm (h z hc.symm)
    · exact hi
  · exact Or.inr

/-- A comment stays open exactly if no star-slash follows. -/
theorem closeComment?_eq_none_iff {s : List Char} :
    closeComment? s = none ↔ ¬ ['*', '/'] <:+: s := by
  fun_induction closeComment? s with
  | case1 r =>
    simp only [reduceCtorEq, false_iff, not_not]
    exact ⟨[], r, rfl⟩
  | case2 c r hc ih => rw [Option.map_eq_none_iff, ih, infix_cons_iff_of_ne hc]
  | case3 => simp

/-- What closes a comment is the first star-slash. -/
theorem closeComment?_of_not_infix {body : List Char} (h : ¬ ['*', '/'] <:+: body ++ ['*'])
    (after : List Char) :
    closeComment? (body ++ '*' :: '/' :: after) = some (body ++ ['*', '/'], after) := by
  induction body with
  | nil => rfl
  | cons c body ih =>
    have hc : ∀ r', c = '*' → body ++ '*' :: '/' :: after = '/' :: r' → False := by
      intro r' hs hr
      cases body with
      | nil => simp at hr
      | cons e body =>
        apply h
        refine ⟨[], body ++ ['*'], ?_⟩
        rw [hs, (List.cons.inj hr).1]
        rfl
    have hi : ¬ ['*', '/'] <:+: body ++ ['*'] := fun hi => h (List.infix_cons hi)
    rw [List.cons_append, closeComment?.eq_2 _ _ hc, ih hi]
    rfl

theorem exists_of_closeComment? {s body after : List Char}
    (h : closeComment? s = some (body, after)) :
    ∃ inner, body = inner ++ ['*', '/'] ∧ ¬ ['*', '/'] <:+: inner ++ ['*'] := by
  fun_induction closeComment? s generalizing body after with
  | case1 r =>
    simp only [Option.some.injEq, Prod.mk.injEq] at h
    refine ⟨[], h.1.symm, ?_⟩
    decide
  | case2 c r hc ih =>
    obtain ⟨⟨b, t⟩, hb, hbt⟩ := Option.map_eq_some_iff.1 h
    simp only [Prod.mk.injEq] at hbt
    obtain ⟨rfl, rfl⟩ := hbt
    obtain ⟨inner, rfl, hi⟩ := ih hb
    refine ⟨c :: inner, rfl, ?_⟩
    have happ := append_of_closeComment? hb
    rw [List.cons_append, infix_cons_iff_of_ne]
    · exact hi
    · -- a star here and a slash next would have closed the comment earlier
      intro r' hs hr
      cases inner with
      | nil => simp at hr
      | cons e inner =>
        apply hc (inner ++ ['*', '/'] ++ t) hs
        rw [← happ, (List.cons.inj hr).1]
        rfl
  | case3 => simp at h

theorem closedComment_of_closeComment? {s body after : List Char}
    (h : closeComment? s = some (body, after)) : ClosedComment ('/' :: '*' :: body) := by
  obtain ⟨inner, rfl, hi⟩ := exists_of_closeComment? h
  exact ⟨inner, rfl, hi⟩

/-- A closed comment is what the comment reader finds, whatever follows. -/
theorem ClosedComment.exists_eq {s : List Char} (h : ClosedComment s) :
    ∃ body, s = '/' :: '*' :: body ∧
      ∀ after, closeComment? (body ++ after) = some (body, after) := by
  obtain ⟨inner, rfl, hi⟩ := h
  refine ⟨inner ++ ['*', '/'], rfl, fun after => ?_⟩
  rw [List.append_assoc]
  exact closeComment?_of_not_infix hi after

theorem UnclosedComment.exists_eq {s : List Char} (h : UnclosedComment s) :
    ∃ body, s = '/' :: '*' :: body ∧ closeComment? body = none := by
  obtain ⟨body, rfl, hb⟩ := h
  exact ⟨body, rfl, closeComment?_eq_none_iff.2 hb⟩

/-! ## Gaps -/

/-- Whether a text is at its end or at the end of a line. -/
def EndOfLine (s : List Char) : Prop :=
  s = [] ∨ ∃ r, s = '\n' :: r

/-- What a gap is made of, in front of the text `after`. -/
inductive GapItem (after : List Char) : List Char → Prop where
  | space {c : Char} (hc : isSpace c = true) : GapItem after [c]
  /-- A line comment runs up to a line feed, which stays outside it, or to the end. -/
  | line {body : List Char} (hb : '\n' ∉ body) (ha : EndOfLine after) :
      GapItem after ('/' :: '/' :: body)
  | block {comment : List Char} (hc : ClosedComment comment) : GapItem after comment
  /-- A block comment that is never closed leaves nothing behind it. -/
  | unclosed {comment : List Char} (hc : UnclosedComment comment) (ha : after = []) :
      GapItem after comment

/-- A gap in front of the text `after`: items behind each other. -/
inductive IsGap (after : List Char) : List Char → Prop where
  | nil : IsGap after []
  | cons {item rest : List Char} (hi : GapItem (rest ++ after) item) (hr : IsGap after rest) :
      IsGap after (item ++ rest)

theorem splitLine_append_of_endOfLine {body after : List Char} (hb : '\n' ∉ body)
    (ha : EndOfLine after) : splitLine (body ++ after) = (body, after) := by
  have hw : ∀ c ∈ body, decide (c ≠ '\n') = true := by
    intro c hc
    have hne : c ≠ '\n' := by
      rintro rfl
      exact hb hc
    simpa using hne
  rw [splitLine, List.takeWhile_append_of_pos hw, List.dropWhile_append_of_pos hw]
  rcases ha with rfl | ⟨r, rfl⟩
  · simp
  · simp

theorem endOfLine_splitLine (r : List Char) : EndOfLine (splitLine r).2 :=
  Scan.splitLine_rest r

theorem not_mem_splitLine (r : List Char) : '\n' ∉ (splitLine r).1 := by
  intro h
  have := List.mem_takeWhile_imp h
  simp at this

/-- An item in front of a text joins the gap that the text starts with. -/
theorem GapItem.splitGap {after item : List Char} (h : GapItem after item) :
    splitGap (item ++ after) = (item ++ (splitGap after).1, (splitGap after).2) := by
  cases h with
  | space hc => exact splitGap_cons_of_isSpace hc after
  | @line body hb ha =>
    have hl := splitLine_append_of_endOfLine hb ha
    rw [List.cons_append, List.cons_append, splitGap_line, hl]
  | block hc =>
    obtain ⟨body, rfl, hb⟩ := hc.exists_eq
    rw [List.cons_append, List.cons_append, splitGap_block (hb after)]
  | unclosed hc ha =>
    obtain ⟨body, rfl, hb⟩ := hc.exists_eq
    subst ha
    rw [List.append_nil, Source.splitGap]
    split
    · rename_i hs
      rw [hb] at hs
      simp at hs
    · simp [Source.splitGap]

/-- A gap is cut off as a whole, together with what the text behind it starts with. -/
theorem IsGap.splitGap {after gap : List Char} (h : IsGap after gap) :
    splitGap (gap ++ after) = (gap ++ (splitGap after).1, (splitGap after).2) := by
  induction h with
  | nil => rfl
  | cons hi hr ih => rw [List.append_assoc, hi.splitGap, ih, List.append_assoc]

/-- What is cut off as a gap is one. -/
theorem isGap_splitGap (s : List Char) : IsGap (splitGap s).2 (splitGap s).1 := by
  fun_induction splitGap s with
  | case1 r p ih =>
    have happ : p.1 ++ p.2 = (splitLine r).2 := append_splitGap _
    have hl : EndOfLine (p.1 ++ p.2) := by
      rw [happ]
      exact endOfLine_splitLine r
    exact .cons (.line (not_mem_splitLine r) hl) ih
  | case2 r body after h p ih =>
    exact .cons (.block (closedComment_of_closeComment? h)) ih
  | case3 r h =>
    have hu : UnclosedComment ('/' :: '*' :: r) := ⟨r, rfl, closeComment?_eq_none_iff.1 h⟩
    have hg : IsGap [] ('/' :: '*' :: r ++ []) := .cons (.unclosed hu rfl) .nil
    rwa [List.append_nil] at hg
  | case4 c r _ _ hs p ih => exact .cons (.space hs) ih
  | case5 => exact .nil
  | case6 => exact .nil

/-! ## Literals -/

/-- What stands between the quotes of a literal: no quote, no line feed and no backslash,
    unless a backslash stands before it. -/
inductive LiteralBody (quote : Char) : List Char → Prop where
  | nil : LiteralBody quote []
  | escape {r : List Char} (c : Char) (h : LiteralBody quote r) :
      LiteralBody quote ('\\' :: c :: r)
  | plain {c : Char} {r : List Char} (hq : c ≠ quote) (hb : c ≠ '\\') (hl : c ≠ '\n')
      (h : LiteralBody quote r) : LiteralBody quote (c :: r)

/-- A literal without its opening quote, in front of the text `after`. -/
inductive LiteralRest (quote : Char) (after : List Char) : List Char → Prop where
  | closed {body : List Char} (h : LiteralBody quote body) :
      LiteralRest quote after (body ++ [quote])
  /-- The literal is cut off before a line feed or at the end. -/
  | cut {body : List Char} (h : LiteralBody quote body) (ha : EndOfLine after) :
      LiteralRest quote after body
  /-- The text ends with a backslash that has nothing to take with it. -/
  | dangling {body : List Char} (h : LiteralBody quote body) (ha : after = []) :
      LiteralRest quote after (body ++ ['\\'])

theorem LiteralRest.escape {quote : Char} {after r : List Char} (c : Char)
    (h : LiteralRest quote after r) : LiteralRest quote after ('\\' :: c :: r) := by
  cases h with
  | closed hb => exact .closed (.escape c hb)
  | cut hb ha => exact .cut (.escape c hb) ha
  | dangling hb ha => exact .dangling (.escape c hb) ha

theorem LiteralRest.plain {quote c : Char} {after r : List Char} (hq : c ≠ quote) (hb : c ≠ '\\')
    (hl : c ≠ '\n') (h : LiteralRest quote after r) : LiteralRest quote after (c :: r) := by
  cases h with
  | closed hr => exact .closed (.plain hq hb hl hr)
  | cut hr ha => exact .cut (.plain hq hb hl hr) ha
  | dangling hr ha => exact .dangling (.plain hq hb hl hr) ha

/-- What is cut off as a literal is one. -/
theorem literalRest_splitLiteral (quote : Char) (s : List Char) :
    LiteralRest quote (splitLiteral quote s).2 (splitLiteral quote s).1 := by
  fun_induction splitLiteral quote s with
  | case1 => exact .cut .nil (Or.inl rfl)
  | case2 c r p ih => exact ih.escape c
  | case3 r hc => exact .closed .nil
  | case4 r hc hcq => exact .cut .nil (Or.inr ⟨r, rfl⟩)
  | case5 c r hc hq hl p ih =>
    by_cases hb : c = '\\'
    · -- only a backslash at the very end comes here
      subst hb
      cases r with
      | nil => exact .dangling .nil rfl
      | cons e r => exact absurd rfl (hc e r rfl)
    · exact ih.plain hq hb hl

theorem splitLiteral_cons_of_ne {quote c : Char} (hq : c ≠ quote) (hb : c ≠ '\\') (hl : c ≠ '\n')
    (s : List Char) : splitLiteral quote (c :: s)
      = (c :: (splitLiteral quote s).1, (splitLiteral quote s).2) := by
  rw [splitLiteral.eq_3, if_neg hq, if_neg hl]
  intro e r hc _
  exact hb hc

/-- The inside of a literal is passed over. -/
theorem LiteralBody.splitLiteral {quote : Char} {body : List Char} (h : LiteralBody quote body)
    (s : List Char) : splitLiteral quote (body ++ s)
      = (body ++ (splitLiteral quote s).1, (splitLiteral quote s).2) := by
  induction h with
  | nil => rfl
  | escape c _ ih => rw [List.cons_append, List.cons_append, Source.splitLiteral, ih]; rfl
  | plain hq hb hl _ ih => rw [List.cons_append, splitLiteral_cons_of_ne hq hb hl, ih]; rfl

/-- What has the form of a literal is cut off as one. -/
theorem LiteralRest.splitLiteral {quote : Char} (hq : quote ≠ '\\') (hl : quote ≠ '\n')
    {after rest : List Char} (h : LiteralRest quote after rest) :
    splitLiteral quote (rest ++ after) = (rest, after) := by
  cases h with
  | closed hb =>
    rw [List.append_assoc, hb.splitLiteral, List.singleton_append, Source.splitLiteral.eq_3]
    · simp
    · intro e r hc _
      exact hq hc
  | cut hb ha =>
    rw [hb.splitLiteral]
    rcases ha with rfl | ⟨r, rfl⟩
    · simp [Source.splitLiteral]
    · rw [Source.splitLiteral.eq_3 _ _ _ (by simp), if_neg (Ne.symm hl), if_pos rfl,
        List.append_nil]
  | dangling hb ha =>
    subst ha
    rw [List.append_nil, hb.splitLiteral, Source.splitLiteral.eq_3 _ _ _ (by simp),
      if_neg (Ne.symm hq), if_neg (by decide)]
    simp [Source.splitLiteral]

/-! ## Tokens -/

/-- What a token of each kind looks like in front of the text `after`. A word ends where
    the text goes on with a character that is no part of it. -/
inductive TokenForm (after : List Char) : TokenKind → List Char → Prop where
  | ident {c : Char} {w : List Char} (hc : isLetter c = true) (hw : ∀ e ∈ w, isIdentChar e = true)
      (ha : ∀ e ∈ after.head?, isIdentChar e = false) : TokenForm after .ident (c :: w)
  | number {c : Char} {w : List Char} (hc : c.isDigit = true) (hw : ∀ e ∈ w, isNumberChar e = true)
      (ha : ∀ e ∈ after.head?, isNumberChar e = false) : TokenForm after .number (c :: w)
  | str {r : List Char} (hr : LiteralRest '"' after r) : TokenForm after .str ('"' :: r)
  | char {r : List Char} (hr : LiteralRest '\'' after r) : TokenForm after .char ('\'' :: r)
  /-- A character that starts nothing else, neither a gap nor another token. -/
  | punct {c : Char} (hl : isLetter c = false) (hd : c.isDigit = false) (hq : c ≠ '"')
      (ha : c ≠ '\'') (hs : isSpace c = false) (ho : opensComment (c :: after) = false) :
      TokenForm after .punct [c]

theorem takeWhile_append_of_head {p : Char → Bool} {w after : List Char}
    (hw : ∀ e ∈ w, p e = true) (ha : ∀ e ∈ after.head?, p e = false) :
    (w ++ after).takeWhile p = w ∧ (w ++ after).dropWhile p = after := by
  rw [List.takeWhile_append_of_pos hw, List.dropWhile_append_of_pos hw]
  cases after with
  | nil => simp
  | cons e after =>
    have he : p e = false := ha e rfl
    simp [he]

theorem head_dropWhile {p : Char → Bool} (s : List Char) :
    ∀ e ∈ (s.dropWhile p).head?, p e = false := by
  intro e he
  have h := List.head?_dropWhile_not p s
  rw [Option.mem_def.1 he] at h
  simpa using h

/-- What is cut off as a token has the form of its kind. -/
theorem tokenForm_splitToken {c : Char} {r : List Char} (hs : isSpace c = false)
    (ho : opensComment (c :: r) = false) :
    TokenForm (splitToken c r).2.2 (splitToken c r).1 (c :: (splitToken c r).2.1) := by
  unfold splitToken
  split
  · exact .ident ‹_› (fun e he => List.mem_takeWhile_imp he) (head_dropWhile r)
  split
  · exact .number ‹_› (fun e he => List.mem_takeWhile_imp he) (head_dropWhile r)
  split
  · rename_i hq
    subst hq
    exact .str (literalRest_splitLiteral '"' r)
  split
  · rename_i hq
    subst hq
    exact .char (literalRest_splitLiteral '\'' r)
  · exact .punct (by simpa using ‹¬ isLetter c = true›) (by simpa using ‹¬ c.isDigit = true›)
      ‹_› ‹_› hs ho

theorem isSpace_of_isNumberChar {c : Char} (h : isNumberChar c = true) : isSpace c = false := by
  cases hs : isSpace c with
  | false => rfl
  | true =>
    rw [isNumberChar_of_isSpace hs] at h
    simp at h

theorem isLetter_of_isDigit {c : Char} (h : c.isDigit = true) : isLetter c = false := by
  have hne : c ≠ '_' := by
    rintro rfl
    simp at h
  have ha : c.isAlpha = false := by
    unfold Char.isDigit at h
    unfold Char.isAlpha Char.isUpper Char.isLower
    simp only [Bool.and_eq_true, Bool.or_eq_false_iff, Bool.and_eq_false_iff, decide_eq_true_eq,
      decide_eq_false_iff_not, ge_iff_le, UInt32.le_iff_toNat_le] at h ⊢
    have h₁ : '9'.val.toNat = 57 := rfl
    have h₂ : 'A'.val.toNat = 65 := rfl
    have h₃ : 'a'.val.toNat = 97 := rfl
    omega
  simp [isLetter, ha, hne]

namespace TokenForm

variable {after text : List Char} {kind : TokenKind}

theorem ne_nil (h : TokenForm after kind text) : text ≠ [] := by
  cases h <;> simp

/-- A token starts no gap. -/
theorem splitGap (h : TokenForm after kind text) :
    splitGap (text ++ after) = ([], text ++ after) := by
  have word : ∀ {c : Char} (r : List Char), isNumberChar c = true →
      Source.splitGap (c :: r) = ([], c :: r) := fun r hc =>
    splitGap_of_opensComment_eq_false (isSpace_of_isNumberChar hc)
      (opensComment_of_ne (ne_of_isNumberChar hc (by decide)) r)
  cases h with
  | ident hc _ _ => exact word _ (isNumberChar_of_isIdentChar (isIdentChar_of_isLetter hc))
  | number hc _ _ => exact word _ (isNumberChar_of_isDigit hc)
  | str _ => exact splitGap_of_opensComment_eq_false rfl (opensComment_of_ne (by decide) _)
  | char _ => exact splitGap_of_opensComment_eq_false rfl (opensComment_of_ne (by decide) _)
  | punct _ _ _ _ hs ho => exact splitGap_of_opensComment_eq_false hs ho

/-- What has the form of a token is cut off as one. -/
theorem splitToken (h : TokenForm after kind text) :
    ∃ c w, text = c :: w ∧ splitToken c (w ++ after) = (kind, w, after) := by
  cases h with
  | @ident c w hc hw ha =>
    obtain ⟨h₁, h₂⟩ := takeWhile_append_of_head hw ha
    exact ⟨c, w, rfl, by rw [Source.splitToken, if_pos hc, h₁, h₂]⟩
  | @number c w hc hw ha =>
    obtain ⟨h₁, h₂⟩ := takeWhile_append_of_head hw ha
    have hl : ¬ isLetter c = true := by simp [isLetter_of_isDigit hc]
    exact ⟨c, w, rfl, by rw [Source.splitToken, if_neg hl, if_pos hc, h₁, h₂]⟩
  | @str r hr =>
    refine ⟨'"', r, rfl, ?_⟩
    have hl := hr.splitLiteral (by decide) (by decide)
    simp [Source.splitToken, isLetter, hl]
  | @char r hr =>
    refine ⟨'\'', r, rfl, ?_⟩
    have hl := hr.splitLiteral (by decide) (by decide)
    simp [Source.splitToken, isLetter, hl]
  | @punct c hl hd hq ha _ _ =>
    refine ⟨c, [], rfl, ?_⟩
    simp [Source.splitToken, hl, hd, hq, ha]

end TokenForm

/-! ## Whole texts -/

/-- What the grammar asks of a token in front of the text `after`. `first` says that no
    token stands before it. -/
structure Token.Fits (t : Token) (first : Bool) (after : List Char) : Prop where
  isGap : IsGap (t.text ++ after) t.gap
  form : TokenForm after t.kind t.text
  opensLine_eq : t.opensLine = (first || t.gap.contains '\n')

/-- Whether the tokens `ts` and the gap `tail` behind them spell a text by the grammar. -/
def Lawful (first : Bool) : List Token → List Char → Prop
  | [], tail => IsGap [] tail
  | t :: ts, tail => t.Fits first (Token.render ts ++ tail) ∧ Lawful false ts tail

/-- The lexer cuts a text by the grammar. -/
theorem lawful_lexFrom (first : Bool) (s : List Char) :
    Lawful first (lexFrom first s).tokens (lexFrom first s).tail := by
  fun_induction lexFrom first s with
  | case1 first s gap h =>
    have hg := isGap_splitGap s
    rw [h] at hg
    exact hg
  | case2 first s gap c r h t l ih =>
    have hr : (splitGap s).2 = c :: r := by rw [h]
    obtain ⟨hs, ho⟩ := opensComment_of_splitGap hr
    have htext : Token.render l.tokens ++ l.tail = t.2.2 := Lexed.text_lexFrom false t.2.2
    have hg := isGap_splitGap s
    rw [h] at hg
    refine ⟨⟨?_, ?_, rfl⟩, ih⟩
    · show IsGap (c :: t.2.1 ++ (Token.render l.tokens ++ l.tail)) gap
      rw [htext, List.cons_append, append_splitToken]
      exact hg
    · rw [htext]
      exact tokenForm_splitToken hs ho

/-- What is spelled by the grammar is cut as it is spelled. -/
theorem lexFrom_of_lawful {first : Bool} {ts : List Token} {tail : List Char}
    (h : Lawful first ts tail) : lexFrom first (Token.render ts ++ tail) = ⟨ts, tail⟩ := by
  induction ts generalizing first with
  | nil =>
    have hg := IsGap.splitGap h
    rw [List.append_nil, splitGap] at hg
    apply lexFrom_of_splitGap_nil
    rw [Token.render_nil, List.nil_append, hg]
  | cons t ts ih =>
    obtain ⟨ht, hl⟩ := h
    obtain ⟨c, w, hw, hsplit⟩ := ht.form.splitToken
    have hgap : splitGap (Token.render (t :: ts) ++ tail)
        = (t.gap, c :: (w ++ (Token.render ts ++ tail))) := by
      have hg := ht.isGap.splitGap
      rw [ht.form.splitGap, List.append_nil, hw] at hg
      simpa [hw] using hg
    rw [lexFrom_of_splitGap_cons first hgap, hsplit, ih hl, ← ht.opensLine_eq, ← hw]

/-- The lexer finds the one way in which the grammar spells a text. -/
theorem lexFrom_eq_iff {first : Bool} {s : List Char} {l : Lexed} :
    lexFrom first s = l ↔ l.text = s ∧ Lawful first l.tokens l.tail := by
  constructor
  · rintro rfl
    exact ⟨Lexed.text_lexFrom first s, lawful_lexFrom first s⟩
  · rintro ⟨rfl, h⟩
    exact lexFrom_of_lawful h

/-- A list of tokens is lawful if each token fits where it stands. -/
theorem lawful_iff {first : Bool} {ts : List Token} {tail : List Char} :
    Lawful first ts tail ↔
      (∀ lead t rest, ts = lead ++ t :: rest →
        t.Fits (first && lead.isEmpty) (Token.render rest ++ tail)) ∧ IsGap [] tail := by
  induction ts generalizing first with
  | nil =>
    refine ⟨fun h => ⟨fun lead t rest he => ?_, h⟩, fun h => h.2⟩
    simp at he
  | cons u us ih =>
    constructor
    · rintro ⟨hu, hus⟩
      obtain ⟨hall, htail⟩ := ih.1 hus
      refine ⟨fun lead t rest he => ?_, htail⟩
      cases lead with
      | nil =>
        obtain ⟨rfl, rfl⟩ := List.cons.inj he
        simpa using hu
      | cons v lead => simpa using hall lead t rest (List.cons.inj he).2
    · rintro ⟨hall, htail⟩
      refine ⟨by simpa using hall [] u us rfl, ih.2 ⟨fun lead t rest he => ?_, htail⟩⟩
      rw [he] at hall
      simpa using hall (u :: lead) t rest rfl

/-! ## Texts cut short

    Each form looks at no more of the text that follows than its first character, so a
    text that is cut short keeps the forms before the cut. -/

theorem EndOfLine.of_isPrefix {after after' : List Char} (h : EndOfLine after)
    (hp : after' <+: after) : EndOfLine after' := by
  cases after' with
  | nil => exact Or.inl rfl
  | cons c r =>
    obtain ⟨z, rfl⟩ := hp
    rcases h with h | ⟨r', h⟩
    · simp at h
    · exact Or.inr ⟨r, by rw [(List.cons.inj h).1]⟩

theorem GapItem.of_isPrefix {after after' item : List Char} (h : GapItem after item)
    (hp : after' <+: after) : GapItem after' item := by
  cases h with
  | space hc => exact .space hc
  | line hb ha => exact .line hb (ha.of_isPrefix hp)
  | block hc => exact .block hc
  | unclosed hc ha =>
    subst ha
    exact .unclosed hc (List.prefix_nil.1 hp)

theorem IsGap.of_isPrefix {after after' gap : List Char} (h : IsGap after gap)
    (hp : after' <+: after) : IsGap after' gap := by
  induction h with
  | nil => exact .nil
  | cons hi _ ih => exact .cons (hi.of_isPrefix ((List.prefix_append_right_inj _).2 hp)) ih

theorem LiteralRest.of_isPrefix {quote : Char} {after after' r : List Char}
    (h : LiteralRest quote after r) (hp : after' <+: after) : LiteralRest quote after' r := by
  cases h with
  | closed hb => exact .closed hb
  | cut hb ha => exact .cut hb (ha.of_isPrefix hp)
  | dangling hb ha =>
    subst ha
    exact .dangling hb (List.prefix_nil.1 hp)

theorem head_of_isPrefix {p : Char → Prop} {after after' : List Char} (hp : after' <+: after)
    (h : ∀ c ∈ after.head?, p c) : ∀ c ∈ after'.head?, p c := by
  intro c hc
  obtain ⟨z, rfl⟩ := hp
  apply h
  rw [List.head?_append, Option.mem_def.1 hc]
  rfl

theorem opensComment_of_isPrefix {c : Char} {after after' : List Char} (hp : after' <+: after)
    (h : opensComment (c :: after) = false) : opensComment (c :: after') = false := by
  obtain ⟨z, rfl⟩ := hp
  cases after' with
  | nil => simp [opensComment]
  | cons e r =>
    by_cases hc : c = '/'
    · subst hc
      simpa [opensComment] using h
    · exact opensComment_of_ne hc _

theorem TokenForm.of_isPrefix {after after' text : List Char} {kind : TokenKind}
    (h : TokenForm after kind text) (hp : after' <+: after) : TokenForm after' kind text := by
  cases h with
  | ident hc hw ha => exact .ident hc hw (head_of_isPrefix hp ha)
  | number hc hw ha => exact .number hc hw (head_of_isPrefix hp ha)
  | str hr => exact .str (hr.of_isPrefix hp)
  | char hr => exact .char (hr.of_isPrefix hp)
  | punct hl hd hq ha hs ho => exact .punct hl hd hq ha hs (opensComment_of_isPrefix hp ho)

theorem Token.Fits.of_isPrefix {t : Token} {first : Bool} {after after' : List Char}
    (h : t.Fits first after) (hp : after' <+: after) : t.Fits first after' :=
  ⟨h.isGap.of_isPrefix ((List.prefix_append_right_inj _).2 hp), h.form.of_isPrefix hp,
    h.opensLine_eq⟩

/-- Tokens before a cut stay lawful, with a gap behind them that the text had there. -/
theorem Lawful.cut {first : Bool} {ts us : List Token} {tail tail' : List Char}
    (h : Lawful first (ts ++ us) tail) (hp : tail' <+: Token.render us ++ tail)
    (hg : IsGap [] tail') : Lawful first ts tail' := by
  induction ts generalizing first with
  | nil => exact hg
  | cons t ts ih =>
    rw [List.cons_append] at h
    obtain ⟨ht, hts⟩ := h
    refine ⟨ht.of_isPrefix ?_, ih hts⟩
    rw [Token.render_append, List.append_assoc]
    exact (List.prefix_append_right_inj _).2 hp

/-- Tokens behind a cut stay lawful. -/
theorem Lawful.of_append {first : Bool} {ts us : List Token} {tail : List Char}
    (h : Lawful first (ts ++ us) tail) : Lawful (first && ts.isEmpty) us tail := by
  induction ts generalizing first with
  | nil => simpa using h
  | cons t ts ih => simpa using ih h.2

/-! ## Texts that go on

    For the same reason a form is kept in front of any text with the same first character.
    Where nothing stood behind a token, a mark may follow, unless the token is a literal
    that is still open. -/

theorem EndOfLine.of_head? {after after' : List Char} (h : EndOfLine after)
    (he : after'.head? = after.head?) : EndOfLine after' := by
  rcases h with rfl | ⟨r, rfl⟩
  · exact Or.inl (List.head?_eq_none_iff.1 he)
  · exact Or.inr (List.head?_eq_some_iff.1 he)

theorem GapItem.of_head? {after after' item : List Char} (h : GapItem after item)
    (he : after'.head? = after.head?) : GapItem after' item := by
  cases h with
  | space hc => exact .space hc
  | line hb ha => exact .line hb (ha.of_head? he)
  | block hc => exact .block hc
  | unclosed hc ha =>
    subst ha
    exact .unclosed hc (List.head?_eq_none_iff.1 he)

theorem IsGap.of_head? {after after' gap : List Char} (h : IsGap after gap)
    (he : after'.head? = after.head?) : IsGap after' gap := by
  induction h with
  | nil => exact .nil
  | cons hi _ ih => exact .cons (hi.of_head? (by rw [List.head?_append, List.head?_append, he])) ih

theorem LiteralRest.of_head? {quote : Char} {after after' r : List Char}
    (h : LiteralRest quote after r) (he : after'.head? = after.head?) :
    LiteralRest quote after' r := by
  cases h with
  | closed hb => exact .closed hb
  | cut hb ha => exact .cut hb (ha.of_head? he)
  | dangling hb ha =>
    subst ha
    exact .dangling hb (List.head?_eq_none_iff.1 he)

theorem opensComment_of_head? {c : Char} {after after' : List Char}
    (he : after'.head? = after.head?) : opensComment (c :: after') = opensComment (c :: after) := by
  cases after with
  | nil => rw [List.head?_eq_none_iff.1 he]
  | cons e r =>
    obtain ⟨r', rfl⟩ := List.head?_eq_some_iff.1 he
    by_cases hc : c = '/'
    · subst hc
      rfl
    · rw [opensComment_of_ne hc, opensComment_of_ne hc]

theorem TokenForm.of_head? {after after' text : List Char} {kind : TokenKind}
    (h : TokenForm after kind text) (he : after'.head? = after.head?) :
    TokenForm after' kind text := by
  cases h with
  | ident hc hw ha => exact .ident hc hw (by rwa [he])
  | number hc hw ha => exact .number hc hw (by rwa [he])
  | str hr => exact .str (hr.of_head? he)
  | char hr => exact .char (hr.of_head? he)
  | punct hl hd hq ha hs ho => exact .punct hl hd hq ha hs (by rwa [opensComment_of_head? he])

theorem Token.Fits.of_head? {t : Token} {first : Bool} {after after' : List Char}
    (h : t.Fits first after) (he : after'.head? = after.head?) : t.Fits first after' :=
  ⟨h.isGap.of_head? (by rw [List.head?_append, List.head?_append, he]), h.form.of_head? he,
    h.opensLine_eq⟩

/-- Whether the quote that opens a literal closes it. Other tokens are never left open. -/
def Token.Terminated (t : Token) : Prop :=
  t.kind = .str ∨ t.kind = .char →
    ∃ quote body, LiteralBody quote body ∧ t.text = quote :: (body ++ [quote])

/-- A token at the end of a text keeps its form in front of a mark. -/
theorem TokenForm.of_terminated {t : Token} (h : TokenForm [] t.kind t.text) (ht : t.Terminated)
    {c : Char} (hc : isMark c = true) (r : List Char) : TokenForm (c :: r) t.kind t.text := by
  obtain ⟨⟨⟨⟨⟨hn, -⟩, hslash⟩, hstar⟩, -⟩, -⟩ := isMark_iff.1 hc
  have hword : ∀ p : Char → Bool, (∀ e, p e = true → isNumberChar e = true) →
      ∀ e ∈ (c :: r).head?, p e = false := by
    intro p hp e he
    obtain rfl : c = e := Option.some.inj he
    rw [Bool.eq_false_iff]
    intro hpc
    rw [hp c hpc] at hn
    cases hn
  obtain ⟨gap, kind, text, opensLine⟩ := t
  cases h with
  | ident hl hw _ => exact .ident hl hw (hword _ fun _ => isNumberChar_of_isIdentChar)
  | number hd hw _ => exact .number hd hw (hword _ fun _ he => he)
  | str _ =>
    obtain ⟨quote, body, hb, htext⟩ := ht (Or.inl rfl)
    obtain ⟨rfl, rfl⟩ := List.cons.inj htext
    exact .str (.closed hb)
  | char _ =>
    obtain ⟨quote, body, hb, htext⟩ := ht (Or.inr rfl)
    obtain ⟨rfl, rfl⟩ := List.cons.inj htext
    exact .char (.closed hb)
  | @punct e hl hd hq ha hs _ =>
    refine .punct hl hd hq ha hs ?_
    by_cases he : e = '/'
    · subst he
      simp [opensComment, hslash, hstar]
    · exact opensComment_of_ne he _

theorem Token.Fits.of_terminated {t : Token} {first : Bool} (h : t.Fits first [])
    (ht : t.Terminated) {c : Char} (hc : isMark c = true) (r : List Char) :
    t.Fits first (c :: r) := by
  have hhead : (t.text ++ c :: r).head? = (t.text ++ []).head? := by
    obtain ⟨e, w, hw⟩ := List.exists_cons_of_ne_nil h.form.ne_nil
    rw [hw]
    rfl
  exact ⟨h.isGap.of_head? hhead, h.form.of_terminated ht hc r, h.opensLine_eq⟩

/-- Tokens that end with a closed token may be followed by a mark. -/
theorem Lawful.append_mark {first : Bool} {ts us : List Token} {u : Token} {tail : List Char}
    {c : Char} (h : Lawful first ts []) (hlast : ∀ t ∈ ts.getLast?, t.Terminated)
    (hc : isMark c = true) (hu : u.gap = [] ∧ u.text = [c])
    (hus : Lawful (first && ts.isEmpty) (u :: us) tail) :
    Lawful first (ts ++ u :: us) tail := by
  induction ts generalizing first with
  | nil => simpa using hus
  | cons t ts ih =>
    obtain ⟨ht, hlaw⟩ := h
    cases ts with
    | nil =>
      have hafter : Token.render (u :: us) ++ tail = c :: (Token.render us ++ tail) := by
        simp [hu]
      refine ⟨?_, by simpa using hus⟩
      show t.Fits first (Token.render (u :: us) ++ tail)
      rw [hafter]
      exact ht.of_terminated (hlast t rfl) hc _
    | cons v ts =>
      refine ⟨ht.of_head? ?_, ih hlaw (fun t ht => hlast t ht) (by simpa using hus)⟩
      -- the next token is not empty, so that nothing further back is seen from here
      obtain ⟨e, w, hw⟩ := List.exists_cons_of_ne_nil hlaw.1.form.ne_nil
      simp [hw, List.head?_append]

/-- A text that ends with a closed token is cut from the text behind a mark. -/
theorem lexFrom_append_of_terminated {first : Bool} {a : List Char}
    (htail : (lexFrom first a).tail = [])
    (hlast : ∀ t ∈ (lexFrom first a).tokens.getLast?, t.Terminated) {c : Char}
    (hc : isMark c = true) (r : List Char) :
    lexFrom first (a ++ c :: r)
      = ⟨(lexFrom first a).tokens ++
            ⟨[], .punct, [c], first && (lexFrom first a).tokens.isEmpty⟩ :: (lexFrom false r).tokens,
          (lexFrom false r).tail⟩ := by
  have hlaw := lawful_lexFrom first a
  have htext := Lexed.text_lexFrom first a
  rw [htail] at hlaw
  rw [Lexed.text, htail, List.append_nil] at htext
  have hmark : lexFrom (first && (lexFrom first a).tokens.isEmpty) (c :: r)
      = ⟨⟨[], .punct, [c], first && (lexFrom first a).tokens.isEmpty⟩ :: (lexFrom false r).tokens,
          (lexFrom false r).tail⟩ := by
    have h := lexFrom_append_mark (d := 0) (a := [])
      (first && (lexFrom first a).tokens.isEmpty) rfl hc r
    have hempty : ∀ b, lexFrom b [] = ⟨[], []⟩ :=
      fun b => lexFrom_of_splitGap_nil b (by simp [splitGap])
    rw [hempty] at h
    simpa using h
  obtain ⟨hspell, hrest⟩ := lexFrom_eq_iff.1 hmark
  refine lexFrom_eq_iff.2 ⟨?_, hlaw.append_mark hlast hc ⟨rfl, rfl⟩ hrest⟩
  rw [Lexed.text, Token.render_append, List.append_assoc, htext]
  exact congrArg (a ++ ·) hspell

end PawnApi.Source
