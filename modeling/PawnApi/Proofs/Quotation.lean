/-
  PawnApi.Proofs.Quotation

  A quoted declaration is a declaration.

  An entry quotes its declaration on one line, with a blank for every line feed. As long as
  no line comment runs into the next line and no literal is cut off by its line, the quoted
  text has the tokens of the declaration, each on one line (`lex_onOneLine_span`). So it
  declares the same again (`classify_fullDeclaration`).
-/
import PawnApi.Proofs.Declarations
import PawnApi.Proofs.Grammar
import PawnApi.Proofs.Respacing

namespace PawnApi.Text

/-! ## Texts on one line -/

/-- A character on one line. -/
def charOnOneLine (c : Char) : Char :=
  if c = '\n' then ' ' else c

@[simp] theorem onOneLine_nil : onOneLine [] = [] := rfl

theorem onOneLine_cons (c : Char) (s : List Char) :
    onOneLine (c :: s) = charOnOneLine c :: onOneLine s := rfl

theorem onOneLine_append (s t : List Char) : onOneLine (s ++ t) = onOneLine s ++ onOneLine t :=
  List.map_append

theorem charOnOneLine_of_ne {c : Char} (h : c ≠ '\n') : charOnOneLine c = c :=
  if_neg h

/-- Only a blank stands for something else. -/
theorem eq_of_charOnOneLine_eq {c e : Char} (h : charOnOneLine c = e) (he : e ≠ ' ') : c = e := by
  by_cases hc : c = '\n'
  · rw [hc] at h
    exact absurd h.symm he
  · rwa [charOnOneLine_of_ne hc] at h

theorem onOneLine_of_not_mem {s : List Char} (h : '\n' ∉ s) : onOneLine s = s := by
  refine (List.map_congr_left fun c hc => ?_).trans s.map_id
  exact charOnOneLine_of_ne fun heq => h (heq ▸ hc)

theorem newline_not_mem_onOneLine (s : List Char) : '\n' ∉ onOneLine s := by
  intro h
  obtain ⟨c, -, hc⟩ := List.mem_map.1 h
  have heq : c = '\n' := eq_of_charOnOneLine_eq hc (by decide)
  rw [heq] at hc
  exact absurd hc (by decide)

theorem onOneLine_onOneLine (s : List Char) : onOneLine (onOneLine s) = onOneLine s :=
  onOneLine_of_not_mem (newline_not_mem_onOneLine s)

theorem isBlank_charOnOneLine (c : Char) : isBlank (charOnOneLine c) = isBlank c := by
  by_cases hc : c = '\n'
  · rw [hc]
    rfl
  · rw [charOnOneLine_of_ne hc]

theorem trimStart_onOneLine (s : List Char) :
    trimStart (onOneLine s) = onOneLine (trimStart s) := by
  induction s with
  | nil => rfl
  | cons c s ih =>
    rw [onOneLine_cons]
    cases hc : isBlank c with
    | true =>
      rw [trimStart_cons_of_isBlank hc,
        trimStart_cons_of_isBlank ((isBlank_charOnOneLine c).trans hc), ih]
    | false =>
      rw [trimStart_cons_of_not_isBlank hc,
        trimStart_cons_of_not_isBlank ((isBlank_charOnOneLine c).trans hc), onOneLine_cons]

/-- A text is trimmed alike on one line. -/
theorem trim_onOneLine (s : List Char) : trim (onOneLine s) = onOneLine (trim s) := by
  have hreverse : ∀ x : List Char, (onOneLine x).reverse = onOneLine x.reverse :=
    fun x => List.map_reverse.symm
  rw [trim, trim, trimEnd_eq_reverse, trimEnd_eq_reverse, trimStart_onOneLine, hreverse,
    trimStart_onOneLine, hreverse]

theorem unblank_onOneLine (s : List Char) : unblank (onOneLine s) = unblank s := by
  induction s with
  | nil => rfl
  | cons c s ih =>
    have hcons : ∀ (e : Char) (x : List Char), unblank (e :: x) = unblank [e] ++ unblank x :=
      fun e x => unblank_append [e] x
    rw [onOneLine_cons, hcons, hcons c, ih]
    congr 1
    by_cases hc : c = '\n'
    · rw [hc]
      rfl
    · rw [charOnOneLine_of_ne hc]

/-- A pair of marks is in a text if it is there on one line. -/
theorem infix_of_infix_onOneLine {a b : Char} (ha : a ≠ ' ') (hb : b ≠ ' ') {s : List Char}
    (h : [a, b] <:+: onOneLine s) : [a, b] <:+: s := by
  obtain ⟨x, y, hxy⟩ := h
  obtain ⟨s₁, s₂, rfl, h₁, -⟩ := List.map_eq_append_iff.1 hxy.symm
  obtain ⟨s₁, m, rfl, -, hm⟩ := List.map_eq_append_iff.1 h₁
  obtain ⟨c, m, rfl, hc, hm⟩ := List.map_eq_cons_iff.1 hm
  obtain ⟨e, m, rfl, he, hm⟩ := List.map_eq_cons_iff.1 hm
  obtain rfl : m = [] := List.map_eq_nil_iff.1 hm
  rw [eq_of_charOnOneLine_eq hc ha, eq_of_charOnOneLine_eq he hb]
  exact ⟨s₁, s₂, rfl⟩

end PawnApi.Text

namespace PawnApi.Source

open PawnApi.Text PawnApi.Param

/-! ## Gaps, literals and tokens on one line -/

theorem ClosedComment.onOneLine {s : List Char} (h : ClosedComment s) :
    ClosedComment (Text.onOneLine s) := by
  obtain ⟨body, rfl, hb⟩ := h
  refine ⟨Text.onOneLine body, ?_, ?_⟩
  · rw [onOneLine_cons, onOneLine_cons, onOneLine_append]
    rfl
  · intro hi
    apply hb
    apply infix_of_infix_onOneLine (by decide) (by decide)
    rw [onOneLine_append]
    exact hi

/-- A gap without line comments: blanks and closed block comments. -/
inductive LinelessGap : List Char → Prop where
  | nil : LinelessGap []
  | space {c : Char} {r : List Char} (hc : isSpace c = true) (hr : LinelessGap r) :
      LinelessGap (c :: r)
  | block {comment r : List Char} (hc : ClosedComment comment) (hr : LinelessGap r) :
      LinelessGap (comment ++ r)

theorem LinelessGap.isGap_onOneLine {gap : List Char} (h : LinelessGap gap) (after : List Char) :
    IsGap after (Text.onOneLine gap) := by
  induction h with
  | nil => exact .nil
  | @space c r hc _ ih =>
    have hspace : isSpace (charOnOneLine c) = true := by
      by_cases hn : c = '\n'
      · rw [hn]
        rfl
      · rwa [charOnOneLine_of_ne hn]
    exact .cons (.space hspace) ih
  | block hc _ ih =>
    rw [onOneLine_append]
    exact .cons (.block hc.onOneLine) ih

theorem LiteralBody.onOneLine {quote : Char} {body : List Char} (h : LiteralBody quote body) :
    LiteralBody quote (Text.onOneLine body) := by
  induction h with
  | nil => exact .nil
  | escape c _ ih => exact .escape (charOnOneLine c) ih
  | plain hq hb hl _ ih =>
    rw [onOneLine_cons, charOnOneLine_of_ne hl]
    exact .plain hq hb hl ih

/-- The token on one line. No other token than a literal has a line feed in it. -/
def Token.onOneLine (t : Token) : Token where
  gap := Text.onOneLine t.gap
  kind := t.kind
  text := if t.kind = .str ∨ t.kind = .char then Text.onOneLine t.text else t.text
  opensLine := false

theorem keepsForm_onOneLine : KeepsForm Token.onOneLine where
  kind_eq _ := rfl
  text_eq _ hs hc := if_neg fun h => h.elim hs hc
  gap_eq t := by
    show (Text.onOneLine t.gap).isEmpty = t.gap.isEmpty
    cases t.gap <;> rfl

/-- What follows a word or a mark on one line does not join it either. -/
theorem head_onOneLine {p : Char → Bool} (hp : p ' ' = false) {after : List Char}
    (h : ∀ e ∈ after.head?, p e = false) :
    ∀ e ∈ (Text.onOneLine after).head?, p e = false := by
  cases after with
  | nil => simp
  | cons c after =>
    intro e he
    obtain rfl : charOnOneLine c = e := Option.some.inj he
    by_cases hc : c = '\n'
    · rw [hc]
      exact hp
    · rw [charOnOneLine_of_ne hc]
      exact h c rfl

theorem opensComment_onOneLine {c : Char} {after : List Char}
    (h : opensComment (c :: after) = false) :
    opensComment (c :: Text.onOneLine after) = false := by
  rw [opensComment_eq_false_iff] at h ⊢
  cases after with
  | nil => exact h
  | cons e after =>
    have hhead : ∀ x r', x ≠ ' ' → onOneLine (e :: after) = x :: r' → e = x := by
      intro x r' hx hr
      exact eq_of_charOnOneLine_eq (List.cons.inj hr).1 hx
    refine ⟨fun r' hc hr => h.1 after hc ?_, fun r' hc hr => h.2 after hc ?_⟩
    · rw [hhead '/' r' (by decide) hr]
    · rw [hhead '*' r' (by decide) hr]

theorem not_mem_of_isNumberChar {w : List Char} (h : ∀ e ∈ w, isNumberChar e = true) :
    '\n' ∉ w := by
  intro hn
  exact absurd (h '\n' hn) (by decide)

/-- A token that is not cut off keeps its form on one line. -/
theorem TokenForm.onOneLine {t : Token} {after : List Char} (h : TokenForm after t.kind t.text)
    (ht : t.Terminated) :
    t.onOneLine.text = Text.onOneLine t.text ∧
      TokenForm (Text.onOneLine after) t.kind (Text.onOneLine t.text) := by
  obtain ⟨gap, kind, text, opensLine⟩ := t
  cases h with
  | @ident c w hc hw ha =>
    have hn : '\n' ∉ c :: w := by
      apply not_mem_of_isNumberChar
      intro e he
      apply isNumberChar_of_isIdentChar
      rcases List.mem_cons.1 he with rfl | he
      · exact isIdentChar_of_isLetter hc
      · exact hw e he
    refine ⟨(onOneLine_of_not_mem hn).symm, ?_⟩
    rw [onOneLine_of_not_mem hn]
    exact .ident hc hw (head_onOneLine (by decide) ha)
  | @number c w hc hw ha =>
    have hn : '\n' ∉ c :: w := by
      apply not_mem_of_isNumberChar
      intro e he
      rcases List.mem_cons.1 he with rfl | he
      · exact isNumberChar_of_isDigit hc
      · exact hw e he
    refine ⟨(onOneLine_of_not_mem hn).symm, ?_⟩
    rw [onOneLine_of_not_mem hn]
    exact .number hc hw (head_onOneLine (by decide) ha)
  | str _ =>
    refine ⟨rfl, ?_⟩
    obtain ⟨quote, body, hb, htext⟩ := ht (Or.inl rfl)
    obtain ⟨rfl, rfl⟩ := List.cons.inj htext
    rw [onOneLine_cons, onOneLine_append]
    exact .str (.closed hb.onOneLine)
  | char _ =>
    refine ⟨rfl, ?_⟩
    obtain ⟨quote, body, hb, htext⟩ := ht (Or.inr rfl)
    obtain ⟨rfl, rfl⟩ := List.cons.inj htext
    rw [onOneLine_cons, onOneLine_append]
    exact .char (.closed hb.onOneLine)
  | @punct c hl hd hq ha hs ho =>
    have hn : '\n' ∉ [c] := by
      rw [List.mem_singleton]
      rintro rfl
      exact absurd hs (by decide)
    refine ⟨(onOneLine_of_not_mem hn).symm, ?_⟩
    rw [onOneLine_of_not_mem hn]
    exact .punct hl hd hq ha hs (opensComment_onOneLine ho)

/-- Whether a token can be put on one line: no line comment stands before it, and its line
    does not cut it off. -/
structure Token.Foldable (t : Token) : Prop where
  gap : LinelessGap t.gap
  terminated : t.Terminated

theorem Token.Fits.onOneLine {t : Token} {first : Bool} {after : List Char}
    (h : t.Fits first after) (ht : t.Foldable) :
    t.onOneLine.Fits false (Text.onOneLine after) := by
  obtain ⟨htext, hform⟩ := h.form.onOneLine ht.terminated
  refine ⟨ht.gap.isGap_onOneLine _, ?_, ?_⟩
  · rw [htext]
    exact hform
  · show false = (false || (Text.onOneLine t.gap).contains '\n')
    simp [newline_not_mem_onOneLine]

/-- Tokens on one line are lexed as such, and spell the text on one line. -/
theorem Lawful.onOneLine {ts : List Token} (h : Lawful false ts []) (hts : ∀ t ∈ ts, t.Foldable) :
    Lawful false (ts.map Token.onOneLine) [] ∧
      Token.render (ts.map Token.onOneLine) = Text.onOneLine (Token.render ts) := by
  induction ts with
  | nil => exact ⟨h, rfl⟩
  | cons t ts ih =>
    obtain ⟨hfits, hlawful⟩ := h
    obtain ⟨hrest, hrender⟩ := ih hlawful fun u hu => hts u (List.mem_cons_of_mem t hu)
    have ht := hts t List.mem_cons_self
    have htext := (hfits.form.onOneLine ht.terminated).1
    rw [List.append_nil] at hfits
    refine ⟨⟨?_, hrest⟩, ?_⟩
    · rw [hrender, List.append_nil]
      exact hfits.onOneLine ht
    · rw [List.map_cons, Token.render_cons, Token.render_cons, hrender, htext, onOneLine_append,
        onOneLine_append]
      rfl

/-- **Lexing what is quoted.** The text of some tokens of a code, put on one line, has these
    tokens, each put on one line. -/
theorem lex_onOneLine_span {code : List Char} {lead rest ts : List Token} {t : Token}
    (h : tokens code = lead ++ (t :: ts ++ rest)) (ht : t.Terminated)
    (hts : ∀ u ∈ ts, u.Foldable) :
    lex (Text.onOneLine (Token.span (t :: ts)))
      = ⟨alone t.onOneLine :: ts.map Token.onOneLine, []⟩ := by
  have hlawful : Lawful true (alone t :: ts) [] := by
    have hl := lawful_lexFrom true (Token.span (t :: ts))
    rwa [show lexFrom true (Token.span (t :: ts)) = ⟨alone t :: ts, []⟩ from
      lex_span h (List.cons_ne_nil t ts)] at hl
  obtain ⟨hfits, hlaw⟩ := hlawful
  obtain ⟨hrest, hrender⟩ := hlaw.onOneLine hts
  -- the first token has no gap, so that it fits wherever a text starts
  obtain ⟨halone, hform⟩ := TokenForm.onOneLine (t := alone t) hfits.form ht
  have htext : t.onOneLine.text = Text.onOneLine t.text := halone
  have hhead : (alone t.onOneLine).Fits true (Token.render (ts.map Token.onOneLine) ++ []) := by
    refine ⟨.nil, ?_, rfl⟩
    rw [hrender, List.append_nil]
    rw [List.append_nil] at hform
    show TokenForm _ t.kind t.onOneLine.text
    rw [htext]
    exact hform
  have hspan : Token.render (alone t.onOneLine :: ts.map Token.onOneLine) ++ []
      = Text.onOneLine (Token.span (t :: ts)) := by
    rw [List.append_nil, Token.render_cons, hrender, Token.span, onOneLine_append, ← htext]
    rfl
  have hfolded : Lawful true (alone t.onOneLine :: ts.map Token.onOneLine) [] := ⟨hhead, hrest⟩
  have hlex := lexFrom_of_lawful hfolded
  rwa [hspan] at hlex

end PawnApi.Source

namespace PawnApi

/-- A text on one line. -/
def oneLine (s : String) : String :=
  String.ofList (Text.onOneLine s.toList)

/-- A view of entries with return types and defaults on one line. -/
def View.onOneLine : View where
  type := oneLine
  paramType := id
  default := Option.map oneLine
  written := id

end PawnApi

namespace PawnApi.Source

open PawnApi.Text

/-! ## The texts that are copied -/

theorem onOneLine_text_onOneLine (t : Token) :
    Text.onOneLine t.onOneLine.text = Text.onOneLine t.text := by
  rw [Token.onOneLine]
  split
  · exact onOneLine_onOneLine t.text
  · rfl

theorem onOneLine_gap_onOneLine (t : Token) :
    Text.onOneLine t.onOneLine.gap = Text.onOneLine t.gap :=
  onOneLine_onOneLine t.gap

theorem onOneLine_render_map (ts : List Token) :
    Text.onOneLine (Token.render (ts.map Token.onOneLine)) = Text.onOneLine (Token.render ts) := by
  induction ts with
  | nil => rfl
  | cons t ts ih =>
    simp only [List.map_cons, Token.render_cons, onOneLine_append, onOneLine_gap_onOneLine,
      onOneLine_text_onOneLine, ih]

theorem onOneLine_span_map (ts : List Token) :
    Text.onOneLine (Token.span (ts.map Token.onOneLine)) = Text.onOneLine (Token.span ts) := by
  cases ts with
  | nil => rfl
  | cons t ts =>
    simp only [List.map_cons, Token.span, onOneLine_append, onOneLine_text_onOneLine,
      onOneLine_render_map]

theorem onOneLine_text_map (g : Group) :
    Text.onOneLine (g.map Token.onOneLine).text = Text.onOneLine g.text := by
  simp only [Group.text, Group.map, onOneLine_append, onOneLine_render_map,
    onOneLine_gap_onOneLine]

/-- Texts that are the same on one line are so after trimming. -/
theorem onOneLine_trim_eq {s s' : List Char} (h : Text.onOneLine s = Text.onOneLine s') :
    Text.onOneLine (trim s) = Text.onOneLine (trim s') := by
  rw [← trim_onOneLine, ← trim_onOneLine, h]

theorem onOneLine_dimensions_map (gs : List Group) :
    Text.onOneLine ((gs.map (Group.map Token.onOneLine)).flatMap fun g =>
        '[' :: trim g.text ++ [']'])
      = Text.onOneLine (gs.flatMap fun g => '[' :: trim g.text ++ [']']) := by
  induction gs with
  | nil => rfl
  | cons g gs ih =>
    simp only [List.map_cons, List.flatMap_cons, onOneLine_append, onOneLine_cons,
      onOneLine_trim_eq (onOneLine_text_map g), ih]

/-- Putting tokens on one line shows in no more than the lines of return types and
    defaults. -/
theorem shows_onOneLine : Shows .onOneLine Token.onOneLine where
  toKeepsForm := keepsForm_onOneLine
  type_eq t gs _ := by
    simp only [View.onOneLine, oneLine, String.toList_ofList, onOneLine_append,
      onOneLine_text_onOneLine, onOneLine_dimensions_map]
  paramType_eq ts := by
    have hspan := congrArg unblank (onOneLine_span_map ts)
    rw [unblank_onOneLine, unblank_onOneLine] at hspan
    rw [hspan]
  default_eq t ts := by
    have htext := onOneLine_trim_eq (onOneLine_render_map ts)
    have hnil : trim (Token.render (ts.map Token.onOneLine)) = []
        ↔ trim (Token.render ts) = [] := by
      have hlength := congrArg List.length htext
      rw [length_onOneLine, length_onOneLine] at hlength
      rw [← List.length_eq_zero_iff, hlength, List.length_eq_zero_iff]
    simp only [View.onOneLine, Param.defaultText?, Option.bind_some, hnil]
    split
    · rfl
    · simp only [Option.map_some, oneLine, String.toList_ofList, htext]
  written_eq ts := by rw [onOneLine_span_map]

/-! ## Texts copied from one line -/

/-- No line feed stands in the token or before it. -/
structure Token.Unbroken (t : Token) : Prop where
  gap : '\n' ∉ t.gap
  text : '\n' ∉ t.text

theorem unbroken_of_mem_tokens {s : List Char} (h : '\n' ∉ s) {t : Token} (ht : t ∈ tokens s) :
    t.Unbroken := by
  have hmem : ∀ c ∈ t.gap ++ t.text, c ∈ s := by
    intro c hc
    rw [← Lexed.text_lex s]
    exact List.mem_append_left _ (List.mem_flatMap_of_mem ht hc)
  exact ⟨fun hn => h (hmem _ (List.mem_append_left _ hn)),
    fun hn => h (hmem _ (List.mem_append_right _ hn))⟩

theorem not_mem_render {ts : List Token} (h : ∀ t ∈ ts, t.Unbroken) : '\n' ∉ Token.render ts := by
  intro hn
  obtain ⟨t, ht, hn⟩ := List.mem_flatMap.1 hn
  rcases List.mem_append.1 hn with hn | hn
  · exact (h t ht).gap hn
  · exact (h t ht).text hn

end PawnApi.Source

namespace PawnApi

open PawnApi.Source PawnApi.Declaration

theorem oneLine_ofList {s : List Char} (h : '\n' ∉ s) :
    oneLine (String.ofList s) = String.ofList s := by
  rw [oneLine, String.toList_ofList, Text.onOneLine_of_not_mem h]

theorem oneLine_name {p : TypePhrase} (h : ∀ t ∈ p.tokens, t.Unbroken) :
    oneLine p.name = p.name := by
  apply oneLine_ofList
  intro hn
  rcases List.mem_append.1 hn with hn | hn
  · exact (h p.word List.mem_cons_self).text hn
  · obtain ⟨b, hb, hn⟩ := List.mem_flatMap.1 hn
    have hdim : ∀ t ∈ b.tokens, t.Unbroken := fun t ht =>
      h t (List.mem_cons_of_mem _ (List.mem_flatMap_of_mem hb ht))
    have htext : '\n' ∉ b.text := by
      intro hn
      rcases List.mem_append.1 hn with hn | hn
      · exact not_mem_render (fun t ht => hdim t (by simp [Bracketed.tokens, ht])) hn
      · exact (hdim b.closer (by simp [Bracketed.tokens])).gap hn
    simp [Text.not_mem_trim htext] at hn

theorem map_oneLine_defaultText? {d : Option (Token × List Token)}
    (h : ∀ t ∈ Param.defaultTokens d, t.Unbroken) :
    (Param.defaultText? d).map oneLine = Param.defaultText? d := by
  cases d with
  | none => rfl
  | some d =>
    have htext : '\n' ∉ Text.trim (Token.render d.2) :=
      Text.not_mem_trim (not_mem_render fun t ht => h t (List.mem_cons_of_mem _ ht))
    simp only [Param.defaultText?, Option.bind_some]
    split
    · rfl
    · rw [Option.map_some, oneLine_ofList htext]

/-- Parameters that are read from one line have their defaults on one line. -/
theorem view_ofTokens (tags : Doc.Tags) {ts : List Token} (h : ∀ t ∈ ts, t.Unbroken) :
    (Param.ofTokens tags ts).map (Param.view .onOneLine) = Param.ofTokens tags ts := by
  refine (List.map_congr_left fun q hq => ?_).trans (List.map_id _)
  obtain ⟨r, hr, rfl⟩ := List.mem_map.1 hq
  obtain ⟨x, hx, hpiece⟩ := List.mem_filterMap.1 hr
  obtain ⟨f, rfl⟩ := Param.exists_of_ofPiece? hpiece
  obtain ⟨-, -, lead, rest, rfl⟩ := Param.of_mem_pieces hx
  have hparam := f.ofPiece?_eq tags
  rw [hpiece] at hparam
  have hdefault : ∀ t ∈ Param.defaultTokens f.default, t.Unbroken := by
    intro t ht
    apply h
    simp [Param.ParamPhrase.tokens, Param.ParamPhrase.declarator, ht]
  rw [Option.some.inj hparam, Param.view]
  simp only [View.onOneLine, Param.ParamPhrase.param, map_oneLine_defaultText? hdefault, id]

end PawnApi

namespace PawnApi.Declaration

open PawnApi.Source PawnApi.Param

/-! ## The tokens that a declaration is matched by -/

/-- The tokens of a code that its declaration quotes, if that is a function that ends with a
    semicolon, a methodmap or a typedef. -/
inductive Matched (all : List Token) : List Token → Prop where
  | function {p : FunctionPhrase} (hp : FirstPhrase FunctionPhrase.whole all p)
      (hs : p.ending.isPunct ';' = true) : Matched all p.quoted
  | methodmap {p : MethodmapPhrase} (hf : NoPhrase FunctionPhrase.whole all)
      (hp : FirstPhrase MethodmapPhrase.whole all p) : Matched all p.header
  | typedef {p : TypedefPhrase} (hf : NoPhrase FunctionPhrase.whole all)
      (hm : NoPhrase MethodmapPhrase.whole all) (hp : FirstPhrase TypedefPhrase.whole all p) :
      Matched all p.header

/-! ## Declarations on one line -/

theorem Bracketed.mem_tokens {opn cls : Char} {b : Bracketed opn cls} {t : Token}
    (h : t ∈ b.inside) : t ∈ b.tokens :=
  List.mem_cons_of_mem _ (List.mem_append_left _ h)

/-- A declaration that is made on one line has all its texts on one line. -/
theorem Declares.view_eq {tags : Doc.Tags} {all : List Token} {d : Found}
    (h : Declares tags all d) (hall : ∀ t ∈ all, t.Unbroken) :
    d.withoutMembers.view .onOneLine = d.withoutMembers := by
  cases h with
  | @function p hp =>
    obtain ⟨lead, ⟨rfl, -⟩, -⟩ := hp
    have htype : oneLine p.type.name = p.type.name :=
      oneLine_name fun t ht => hall t (by simp [FunctionPhrase.whole, FunctionPhrase.header,
        FunctionPhrase.signature, ht])
    have hparams := view_ofTokens tags fun t (ht : t ∈ p.params.inside) =>
      hall t (by simp [FunctionPhrase.whole, FunctionPhrase.header, FunctionPhrase.signature,
        Bracketed.mem_tokens ht])
    show Found.mk _ (.function _ (oneLine p.type.name) (List.map _ _)) _ = _
    rw [htype, hparams]
    rfl
  | methodmap _ _ => rfl
  | @typedef p _ _ hp =>
    obtain ⟨lead, ⟨rfl, -⟩, -⟩ := hp
    have htype : oneLine p.type.name = p.type.name :=
      oneLine_name fun t ht => hall t (by simp [TypedefPhrase.whole, TypedefPhrase.header, ht])
    have hparams := view_ofTokens tags fun t (ht : t ∈ p.params.inside) =>
      hall t (by simp [TypedefPhrase.whole, TypedefPhrase.header, Bracketed.mem_tokens ht])
    show Found.mk _ (.typedef (oneLine p.type.name) (List.map _ _)) _ = _
    rw [htype, hparams]
    rfl

/-- What looks like a declaration without members has none. -/
theorem Found.withoutMembers_eq_self {v : View} {d d' : Found}
    (h : d'.view v = d.withoutMembers.view v) : d'.withoutMembers = d' := by
  have hshape : d'.shape.view v = d.shape.withoutMembers.view v := congrArg Found.shape h
  obtain ⟨name, shape, written⟩ := d'
  cases shape with
  | function kind type params => rfl
  | typedef type params => rfl
  | methodmap inherits methods properties =>
    cases hd : d.shape <;> simp [hd, Shape.view, Shape.withoutMembers] at hshape
    obtain ⟨-, rfl, rfl⟩ := hshape
    rfl

/-! ## Reading a quoted declaration -/

/-- The declaration at the front of a token list, whatever its shape. -/
def readAt? (tags : Doc.Tags) (ts : List Token) : Option Found :=
  (functionAt? tags ts).or ((methodmapAt? ts).or (typedefAt? tags ts))

/-- Where nothing but its first token opens a line, a code is read at that token only. -/
theorem find?_of_statements {tags : Doc.Tags} {ts : List Token} (h : statements ts = [ts]) :
    find? tags ts = readAt? tags ts := by
  have hsingle : ∀ read : List Token → Option Found, [ts].findSome? read = read ts := by
    intro read
    rw [List.findSome?_cons]
    cases read ts <;> rfl
  rw [find?, h, hsingle, hsingle, hsingle, readAt?]

/-- Putting tokens on one line shows in no more than the lines of the texts that are copied. -/
theorem readAt?_onOneLine (tags : Doc.Tags) (ts : List Token) :
    (readAt? tags ((ts.map Token.onOneLine).modifyHead alone)).map (Found.view .onOneLine)
      = (readAt? tags ts).map (Found.view .onOneLine) := by
  simp only [readAt?, functionAt?_modifyHead keepsText_alone,
    methodmapAt?_modifyHead keepsText_alone, typedefAt?_modifyHead keepsText_alone,
    Option.map_or, functionAt?_map shows_onOneLine, methodmapAt?_map shows_onOneLine,
    typedefAt?_map shows_onOneLine]

/-- Tokens that are quoted from a code are read alike, there and in the quoted text. -/
theorem find?_onOneLine_span (tags : Doc.Tags) {code : List Char} {lead rest ts : List Token}
    {t : Token} {w : String} (h : tokens code = lead ++ (t :: ts ++ rest))
    (hw : t.isWord w = true) (ht : t.Terminated) (hts : ∀ u ∈ ts, u.Foldable) :
    (find? tags (tokens (Text.onOneLine (Token.span (t :: ts))))).map (Found.view .onOneLine)
      = (readAt? tags (t :: ts)).map (Found.view .onOneLine) := by
  have htokens : tokens (Text.onOneLine (Token.span (t :: ts)))
      = ((t :: ts).map Token.onOneLine).modifyHead alone :=
    congrArg Lexed.tokens (lex_onOneLine_span h ht hts)
  have hstatements : statements (((t :: ts).map Token.onOneLine).modifyHead alone)
      = [((t :: ts).map Token.onOneLine).modifyHead alone] := by
    have hword : (alone t.onOneLine).isWord w = true := by
      rw [← hw, ← keepsForm_onOneLine.isWord_eq t w]
      rfl
    have hline : ∀ u ∈ ts.map Token.onOneLine, u.opensLine = false := by
      intro u hu
      obtain ⟨x, -, rfl⟩ := List.mem_map.1 hu
      rfl
    show statements (alone t.onOneLine :: ts.map Token.onOneLine) = _
    rw [Print.statements_of_isWord hword rfl, Print.statementsFrom_of_opensLine hline]
    rfl
  rw [htokens, find?_of_statements hstatements, readAt?_onOneLine]

/-! What a phrase quotes is a phrase with nothing behind it. -/

theorem FunctionPhrase.readAt?_quoted (p : FunctionPhrase) (hs : p.ending.isPunct ';' = true)
    (tags : Doc.Tags) : readAt? tags p.quoted = some (p.found tags) := by
  let q : FunctionPhrase := { p with rest := [] }
  have hwhole : p.quoted = q.whole := if_pos hs
  have hread : functionAt? tags p.quoted = some (p.found tags) := by
    rw [hwhole, q.functionAt?_whole]
    rfl
  rw [readAt?, hread]
  rfl

theorem MethodmapPhrase.readAt?_header (p : MethodmapPhrase) (tags : Doc.Tags) :
    readAt? tags p.header = some p.found.withoutMembers := by
  let q : MethodmapPhrase := { p with rest := [], not_isPunct_rest := nofun }
  have hwhole : q.whole = p.header := List.append_nil p.header
  have hfound : q.found = p.found.withoutMembers := by
    have hnil : members (bodyTokens []) = [] := by rw [bodyTokens, members]
    show (⟨_, .methodmap _ (methods (bodyTokens [])) (properties (bodyTokens [])), _⟩ : Found) = _
    rw [methods, properties, hnil]
    rfl
  have hfunction : functionAt? tags p.header = none :=
    functionAt?_of_kind?_eq_none ((kind?_of_isWord p.isWord_head).trans rfl) tags _
  have hread : methodmapAt? p.header = some p.found.withoutMembers := by
    rw [← hwhole, q.methodmapAt?_whole, hfound]
  rw [readAt?, hfunction, hread]
  rfl

theorem TypedefPhrase.readAt?_header (p : TypedefPhrase) (tags : Doc.Tags) :
    readAt? tags p.header = some (p.found tags) := by
  let q : TypedefPhrase := { p with rest := [] }
  have hwhole : q.whole = p.header := List.append_nil p.header
  have hfunction : functionAt? tags p.header = none :=
    functionAt?_of_kind?_eq_none ((kind?_of_isWord p.isWord_head).trans rfl) tags _
  have hmethodmap : methodmapAt? p.header = none := by
    apply methodmapAt?_of_isWord_eq_false
    rw [Token.isWord, text_of_isWord p.isWord_head]
    simp
  have hread : typedefAt? tags p.header = some (p.found tags) := by
    rw [← hwhole, q.typedefAt?_whole]
    rfl
  rw [readAt?, hfunction, hmethodmap, hread]
  rfl

/-- What is matched starts with a word and makes the declaration that it is quoted in. Read
    on its own, it makes that declaration but for the members of a methodmap. -/
theorem Matched.exists_found {all span : List Token} (h : Matched all span) (tags : Doc.Tags) :
    ∃ (d : Found) (lead rest ts : List Token) (t : Token) (w : String),
      find? tags all = some d ∧ d.written = String.ofList (Text.onOneLine (Token.span span)) ∧
      all = lead ++ (span ++ rest) ∧ span = t :: ts ∧ t.isWord w = true ∧
      readAt? tags span = some d.withoutMembers := by
  cases h with
  | @function p hp hs =>
    obtain ⟨lead, ⟨hall, -⟩, -⟩ := id hp
    rw [← p.quoted_append_unquoted] at hall
    have hquoted : p.quoted = p.header ++ [p.ending] := if_pos hs
    exact ⟨p.found tags, lead, _, _, p.head, _, find?_eq_some_iff.2 (.function hp), rfl, hall,
      hquoted, p.isWord_head, p.readAt?_quoted hs tags⟩
  | @methodmap p hf hp =>
    obtain ⟨lead, ⟨hall, -⟩, -⟩ := id hp
    exact ⟨p.found, lead, p.rest, _, p.head, _, find?_eq_some_iff.2 (.methodmap hf hp), rfl, hall,
      rfl, p.isWord_head, p.readAt?_header tags⟩
  | @typedef p hf hm hp =>
    obtain ⟨lead, ⟨hall, -⟩, -⟩ := id hp
    exact ⟨p.found tags, lead, p.rest, _, p.head, _, find?_eq_some_iff.2 (.typedef hf hm hp), rfl,
      hall, rfl, p.isWord_head, p.readAt?_header tags⟩

/-- **Quoted declarations.** Where no line comment stands between the tokens that an entry
    quotes, and none of them is a literal that its line cuts off, the quoted text declares the
    same again, with the same documentation: the same but for the lines of return types and
    defaults, and for the members of a methodmap, which are not quoted. -/
theorem classify_fullDeclaration {code : List Char} {comment : Doc.Comment} {file : String}
    {e : Entry} {span : List Token} (he : classify code comment file = some e)
    (hspan : Matched (tokens code) span) (hgaps : ∀ t ∈ span.tail, LinelessGap t.gap)
    (hliterals : ∀ t ∈ span, t.Terminated) :
    classify e.fullDeclaration.toList comment file
      = some (e.withoutMembers.view .onOneLine) := by
  obtain ⟨d, lead, rest, ts, t, w, hd, hwritten, hall, rfl, hw, hread⟩ :=
    hspan.exists_found comment.tags
  obtain rfl : d.entry comment file = e := by
    rw [classify_eq, hd] at he
    exact Option.some.inj he
  have hts : ∀ u ∈ ts, u.Foldable :=
    fun u hu => ⟨hgaps u hu, hliterals u (List.mem_cons_of_mem t hu)⟩
  have hfind := find?_onOneLine_span comment.tags hall hw (hliterals t List.mem_cons_self) hts
  rw [hread] at hfind
  obtain ⟨d', hd', hview⟩ := Option.map_eq_some_iff.1 hfind
  -- the quoted text has no line feed, so what is found in it shows none
  have hline := (find?_eq_some_iff.1 hd').view_eq fun u hu =>
    unbroken_of_mem_tokens (Text.newline_not_mem_onOneLine _) hu
  rw [Found.withoutMembers_eq_self hview, hview] at hline
  have htext : (d.entry comment file).fullDeclaration.toList
      = Text.onOneLine (Token.span (t :: ts)) := by
    show d.written.toList = _
    rw [hwritten, String.toList_ofList]
  rw [htext, classify_eq, hd', ← hline]
  rfl

/-- A declaration on three lines, with a line feed in a literal and in a comment. -/
theorem classify_fullDeclaration_lines :
    ∃ e : Entry,
      classify "native int f(int a =\n\"\\\n\", /* b\n*/ int c);".toList {} "f.inc" = some e ∧
      e.fullDeclaration = "native int f(int a = \"\\ \", /* b */ int c);" ∧
      classify e.fullDeclaration.toList {} "f.inc" = some (e.withoutMembers.view .onOneLine) := by
  let code : List Char := "native int f(int a =\n\"\\\n\", /* b\n*/ int c);".toList
  let inside : List Token :=
    [⟨[], .ident, "int".toList, false⟩, ⟨[' '], .ident, ['a'], false⟩,
      ⟨[' '], .punct, ['='], false⟩, ⟨['\n'], .str, "\"\\\n\"".toList, true⟩,
      ⟨[], .punct, [','], false⟩,
      ⟨" /* b\n*/ ".toList, .ident, "int".toList, true⟩, ⟨[' '], .ident, ['c'], false⟩]
  let p : FunctionPhrase :=
    { head := ⟨[], .ident, "native".toList, true⟩
      first := .native
      more := []
      marker := none
      type := ⟨⟨[' '], .ident, "int".toList, false⟩, [], rfl⟩
      name := ⟨[' '], .ident, ['f'], false⟩
      params := ⟨⟨[], .punct, ['('], false⟩, inside, ⟨[], .punct, [')'], false⟩,
        rfl, by decide, rfl⟩
      ending := ⟨[], .punct, [';'], false⟩
      rest := []
      isWord_head := by decide
      isModifier_more := by simp
      isWord_marker := by simp
      not_isModifier_type := fun _ => not_isModifier_iff.2 ⟨by decide, by decide⟩
      kind_name := rfl
      isPunct_ending := Or.inl rfl }
  have hwhole : tokens code = p.whole := by
    decide +kernel
  have hspan : Matched (tokens code) p.quoted :=
    .function ⟨[], ⟨hwhole, rfl, p.head, rfl, rfl⟩, fun _ _ _ => Nat.zero_le _⟩ rfl
  have hgaps : ∀ t ∈ p.quoted.tail, LinelessGap t.gap := by
    have hcases : ∀ t ∈ p.quoted.tail,
        t.gap = [] ∨ t.gap = [' '] ∨ t.gap = ['\n'] ∨ t.gap = " /* b\n*/ ".toList := by
      decide
    intro t ht
    rcases hcases t ht with h | h | h | h
    · rw [h]
      exact .nil
    · rw [h]
      exact .space rfl .nil
    · rw [h]
      exact .space rfl .nil
    · rw [h]
      exact .space rfl (.block ⟨" b\n".toList, rfl, by decide⟩ (.space rfl .nil))
  have hliterals : ∀ t ∈ p.quoted, t.Terminated := by
    have hcases : ∀ t ∈ p.quoted,
        ¬ (t.kind = .str ∨ t.kind = .char) ∨ t.text = "\"\\\n\"".toList := by
      decide
    intro t ht hk
    rcases hcases t ht with h | h
    · exact absurd hk h
    · exact ⟨'"', ['\\', '\n'], .escape '\n' .nil, h⟩
  let params : List Param := [⟨"a", "int", some "\"\\\n\"", ""⟩, ⟨"c", "int", none, ""⟩]
  have he : classify code {} "f.inc" = some ⟨"f", .function .native "int" params, "", {},
      "native int f(int a = \"\\ \", /* b */ int c);", "f.inc"⟩ := by
    decide +kernel
  exact ⟨_, he, rfl, classify_fullDeclaration he hspan hgaps hliterals⟩

end PawnApi.Declaration
