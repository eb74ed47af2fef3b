/-
  PawnApi.Proofs.Callables

  Printed functions, methods and constructors and how they are read back.

  As for parameters, `tokens` lists what a function is printed as, and these tokens are
  spelled by its text. `function?` reads them back with whatever follows left over
  (`Callable.function?_tokens`), and quotes the header as it was printed because that is
  on one line.
-/
import PawnApi.Proofs.Parameters

namespace PawnApi.Print

open PawnApi.Source PawnApi.Declaration

/-! ## Texts on one line -/

/-- Whether a text has no line breaks. -/
def OneLine (s : List Char) : Prop :=
  ∀ c ∈ s, c ≠ '\n' ∧ c ≠ '\r'

instance (s : List Char) : Decidable (OneLine s) :=
  inferInstanceAs (Decidable (∀ c ∈ s, c ≠ '\n' ∧ c ≠ '\r'))

theorem OneLine.append {s t : List Char} (hs : OneLine s) (ht : OneLine t) : OneLine (s ++ t) := by
  intro c hc
  rcases List.mem_append.mp hc with hc | hc
  · exact hs c hc
  · exact ht c hc

theorem OneLine.cons {c : Char} {s : List Char} (hc : c ≠ '\n' ∧ c ≠ '\r') (hs : OneLine s) :
    OneLine (c :: s) := by
  intro e he
  rcases List.mem_cons.mp he with rfl | he
  · exact hc
  · exact hs e he

theorem OneLine.flatMap {α : Type} {f : α → List Char} {xs : List α}
    (h : ∀ x ∈ xs, OneLine (f x)) : OneLine (xs.flatMap f) := by
  intro c hc
  obtain ⟨x, hx, hc⟩ := List.mem_flatMap.mp hc
  exact h x hx c hc

theorem oneLine_of_isIdentChar {s : List Char} (h : ∀ c ∈ s, isIdentChar c = true) :
    OneLine s := by
  intro c hc
  have hb := isBlank_of_isIdentChar (h c hc)
  constructor <;> rintro rfl <;> revert hb <;> decide

theorem Ident.oneLine (i : Ident) : OneLine i.text :=
  oneLine_of_isIdentChar i.isWord.2

theorem TypeName.oneLine (t : TypeName) : OneLine t.text := by
  refine t.ident.oneLine.append ?_
  intro c hc
  obtain ⟨l, hl, hc⟩ := List.mem_flatten.mp hc
  obtain rfl := List.eq_of_mem_replicate hl
  have hpair : OneLine ['[', ']'] := by decide
  exact hpair c hc

theorem Size.oneLine (s : Size) : OneLine s.text :=
  .cons (by decide) ((oneLine_of_isIdentChar s.isIdentChar_of_mem).append (by decide))

theorem oneLine_defaultText (e : Option Expr) : OneLine (defaultText e) := by
  cases e with
  | none => decide
  | some e =>
    have he : OneLine e.text := by
      intro c hc
      exact ⟨fun h => e.oneLine (h ▸ hc), fun h => e.noReturn (h ▸ hc)⟩
    exact OneLine.append (by decide) he

theorem ParamDecl.oneLine (p : ParamDecl) : OneLine p.text := by
  have hconst : OneLine (if p.isConst then "const ".toList else []) := by
    split <;> decide
  have href : OneLine (if p.byReference then " &".toList else [' ']) := by
    split <;> decide
  have hsizes : OneLine (p.sizes.flatMap Size.text) := .flatMap fun s _ => s.oneLine
  exact ((((hconst.append p.type.oneLine).append href).append p.ident.oneLine).append hsizes).append
    (oneLine_defaultText p.default)

theorem oneLine_paramsText (ps : List ParamDecl) : OneLine (paramsText ps) := by
  cases ps with
  | nil => decide
  | cons p ps =>
    rw [paramsText_cons]
    exact p.oneLine.append (.flatMap fun q _ => .append (by decide) q.oneLine)

/-! ## Keywords -/

theorem isWord_keyword (k : FunctionKind) : IsWord k.keyword.toList := by
  cases k <;> decide

theorem Qualifier.isWord (q : Qualifier) : IsWord q.text := by
  cases q with
  | kind k => exact isWord_keyword k
  | static => decide

theorem isWord_word (gap : List Char) {w : String} (h : wordKind w.toList = .ident) :
    (word gap w.toList).isWord w = true := by
  simp [Token.isWord, h]

/-- A header on one line is quoted as it is written. -/
theorem quote_of_isWord {t : Token} {ts : List Token} {w : String} {header : List Char}
    (ht : t.isWord w = true) (hr : w.toList ++ Token.render ts = header) (hl : OneLine header)
    (rest : List Token) : quote (t :: (ts ++ rest)) rest = String.ofList header := by
  have hq : quote (t :: (ts ++ rest)) rest = quote (t :: ts) [] := quote_append (t :: ts) [] rest
  have hspan : Token.span (t :: ts) = header := by
    rw [Token.span, text_of_isWord ht, hr]
  have hline : Text.onOneLine header = header := by
    refine (List.map_congr_left fun c hc => ?_).trans (List.map_id _)
    exact if_neg (hl c hc).1
  rw [hq, quote, List.length_nil, Nat.sub_zero, List.take_length, hspan, hline]

theorem wordKind_keyword (k : FunctionKind) : wordKind k.keyword.toList = .ident := by
  cases k <;> rfl

theorem Ident.kind?_word (i : Ident) (gap : List Char) : kind? (word gap i.text) = none := by
  rw [kind?, i.ident?_word, Option.bind_some]
  cases hk : FunctionKind.ofKeyword? i.name with
  | none => rfl
  | some k =>
    refine absurd ?_ i.not_reserved
    rw [show String.ofList i.text = k.keyword from keyword_of_ofKeyword? hk]
    cases k <;> decide

/-- Keywords are skipped up to the first name, and the last one decides the kind. -/
theorem skipKeywords_more (more : List Qualifier) (first : FunctionKind) {rest : List Token}
    (hk : ∀ t ∈ rest.head?, kind? t = none ∧ t.isWord "static" = false) :
    skipKeywords first (more.map (fun q => word [' '] q.text) ++ rest)
      = ((more.filterMap Qualifier.kind?).getLastD first, rest) := by
  induction more generalizing first with
  | nil =>
    cases rest with
    | nil => rfl
    | cons t rest =>
      obtain ⟨h₁, h₂⟩ := hk t rfl
      simp [skipKeywords, h₁, h₂]
  | cons q more ih =>
    rw [List.map_cons, List.cons_append, skipKeywords]
    cases q with
    | kind k =>
      have h : kind? (word [' '] (Qualifier.kind k).text) = some k :=
        (kind?_of_isWord (isWord_word [' '] (wordKind_keyword k))).trans k.ofKeyword?_keyword
      have hf : (Qualifier.kind k :: more).filterMap Qualifier.kind?
          = k :: more.filterMap Qualifier.kind? := rfl
      rw [h, hf, List.getLastD_cons]
      exact ih k
    | static =>
      have h₁ : kind? (word [' '] Qualifier.static.text) = none := by decide
      have h₂ : (word [' '] Qualifier.static.text).isWord "static" = true := by decide
      rw [h₁]
      simp only [h₂, if_true]
      exact ih first

/-! ## How a declaration ends -/

theorem oneLine_semicolon (b : Option Body) : OneLine (semicolon b) := by
  cases b with
  | none => decide
  | some b => exact fun c hc => absurd hc List.not_mem_nil

theorem noReturn_bodyText (b : Option Body) : '\r' ∉ bodyText b := by
  cases b with
  | none => exact List.not_mem_nil
  | some b =>
    have hb := b.closed.noReturn
    simp [bodyText, hb]

def semicolonTokens : Option Body → List Token
  | none => [mark [] ';']
  | some _ => []

def braceTokens : Option Body → List Token
  | none => []
  | some b => block [' '] b.text

theorem render_semicolonTokens (b : Option Body) :
    Token.render (semicolonTokens b) = semicolon b := by
  cases b <;> rfl

theorem render_braceTokens (b : Option Body) : Token.render (braceTokens b) = bodyText b := by
  cases b with
  | none => rfl
  | some b => exact render_block [' '] b.text

theorem spells_semicolonTokens (b : Option Body) (after : List Char) :
    Spells (semicolonTokens b) after := by
  cases b with
  | none => exact spells_glued (by decide) after
  | some b => exact Spells.nil after

theorem spells_braceTokens (b : Option Body) (after : List Char) :
    Spells (braceTokens b) after := by
  cases b with
  | none => exact Spells.nil after
  | some b => exact spells_block isSpace_of_mem_space b.closed after

theorem neutral_semicolonTokens (b : Option Body) : Neutral '{' '}' (semicolonTokens b) := by
  cases b with
  | none => exact Neutral.cons (by decide) (by decide) Neutral.nil
  | some b => exact Neutral.nil

theorem neutral_braceTokens (b : Option Body) : Neutral '{' '}' (braceTokens b) := by
  cases b with
  | none => exact Neutral.nil
  | some b => exact neutral_block b.closed [' ']

/-- A block is a closed group. -/
theorem closeGroup?_block {body : List Char} (hb : ClosedBody body) (rest : List Token) :
    closeGroup? '{' '}' 0
        ((lexFrom false body).tokens ++ mark (lexFrom false body).tail '}' :: rest)
      = some ⟨(lexFrom false body).tokens, mark (lexFrom false body).tail '}', rest⟩ :=
  closeGroup?_of_balanced (hb.level?_eq 0) (by decide) (by simp) rest

theorem block_append (gap body : List Char) (rest : List Token) :
    block gap body ++ rest
      = mark gap '{' ::
        ((lexFrom false body).tokens ++ mark (lexFrom false body).tail '}' :: rest) := by
  rw [block, List.cons_append, List.append_assoc, List.singleton_append]

/-- Only the body is left unquoted. -/
theorem ending?_tokens (b : Option Body) (rest : List Token) :
    ending? (semicolonTokens b ++ (braceTokens b ++ rest))
      = some (braceTokens b ++ rest, rest) := by
  cases b with
  | none => simp [semicolonTokens, braceTokens, ending?]
  | some b =>
    simp only [semicolonTokens, braceTokens, List.nil_append, block_append]
    simp [ending?, closeGroup?_block b.closed]

/-- The declaration is skipped as a statement, unless a stray semicolon follows its body. -/
theorem dropStatement_tokens (b : Option Body) {rest : List Token}
    (hr : ∀ t ∈ rest.head?, t.isPunct ';' = false) :
    dropStatement (semicolonTokens b ++ (braceTokens b ++ rest)) = rest := by
  cases b with
  | none => simp [semicolonTokens, braceTokens, dropStatement]
  | some b =>
    simp only [semicolonTokens, braceTokens, List.nil_append, block_append]
    have hd : dropSemicolon rest = rest := by
      cases rest with
      | nil => rfl
      | cons t rest => simp [dropSemicolon, hr t rfl]
    simp [dropStatement, closeGroup?_block b.closed, hd]

/-! ## Functions, methods and constructors -/

/-- The group behind a name is the parameters, up to their own parenthesis. -/
theorem group?_paramsTokens (ps : List ParamDecl) (gap : List Char) (rest : List Token) :
    group? '(' ')' (mark gap '(' :: (paramsTokens ps ++ mark [] ')' :: rest))
      = some ⟨paramsTokens ps, mark [] ')', rest⟩ := by
  have hb := neutral_paramsTokens ps (.inl ⟨rfl, rfl⟩) 0
  simp [group?, closeGroup?_of_balanced hb (by decide) (isPunct_mark [] ')' ')')]

def resultTokens : Option TypeName → List Token
  | none => []
  | some t => t.tokens [' ']

namespace Callable

/-- The tokens from the result through the opening parenthesis. -/
def nameTokens (f : Callable) : List Token :=
  resultTokens f.result ++ [word [' '] f.ident.text, mark [] '(']

/-- The tokens of the header behind the first keyword. -/
def headerTail (f : Callable) : List Token :=
  f.more.map (fun q => word [' '] q.text) ++
    (f.nameTokens ++ (paramsTokens f.params ++ mark [] ')' :: semicolonTokens f.body))

/-- The tokens of a function behind a gap. -/
def tokens (gap : List Char) (f : Callable) : List Token :=
  word gap f.first.keyword.toList :: (f.headerTail ++ braceTokens f.body)

theorem render_headerTail (f : Callable) :
    f.first.keyword.toList ++ Token.render f.headerTail = f.header := by
  have hm : Token.render (f.more.map fun q => word [' '] q.text)
      = f.more.flatMap fun q => ' ' :: q.text := by
    rw [← List.flatMap_singleton' (f.more.map _), List.flatMap_map]
    exact render_flatMap f.more fun q _ => render_word [' '] q.text
  have hr : Token.render (resultTokens f.result) = resultText f.result := by
    cases f.result with
    | none => rfl
    | some t => exact t.render_tokens [' ']
  simp only [headerTail, nameTokens, header, Token.render_append, Token.render_cons, hm, hr,
    render_paramsTokens, render_semicolonTokens, gap_word, text_word, gap_mark, text_mark]
  simp

theorem render_tokens (gap : List Char) (f : Callable) :
    Token.render (f.tokens gap) = gap ++ f.text := by
  rw [tokens, Token.render_cons, Token.render_append, render_braceTokens, text,
    ← f.render_headerTail]
  simp

theorem spells_more (more : List Qualifier) {after : List Char} (ha : Breaks after) :
    Spells (more.map fun q => word [' '] q.text) after := by
  induction more with
  | nil => exact Spells.nil after
  | cons q more ih =>
    refine Spells.cons (spells_spaced q.isWord ?_) ih
    cases more with
    | nil => exact ha
    | cons q' more => exact breaks_space _

theorem spells_nameTokens (f : Callable) (after : List Char) : Spells f.nameTokens after := by
  have hname : Spells [word [' '] f.ident.text, mark [] '('] after := by
    refine Spells.cons (spells_spaced f.ident.isWord ?_) (spells_glued (by decide) after)
    exact breaks_cons (by decide) _
  cases hr : f.result with
  | none =>
    rw [nameTokens, hr]
    exact hname
  | some t =>
    rw [nameTokens, hr]
    exact Spells.append (t.spells isSpace_of_mem_space (breaks_space _)) hname

theorem breaks_nameTokens (f : Callable) (after : List Char) :
    Breaks (Token.render f.nameTokens ++ after) := by
  cases hr : f.result with
  | none =>
    rw [nameTokens, hr]
    exact breaks_space _
  | some t =>
    rw [nameTokens, hr, resultTokens, Token.render_append, t.render_tokens]
    exact breaks_space _

theorem spells (f : Callable) {gap : List Char} (hg : ∀ c ∈ gap, isSpace c = true)
    (after : List Char) : Spells (f.tokens gap) after := by
  -- The header is put together from its end, since a word needs to know what follows it.
  have hparams : ∀ r,
      Spells (paramsTokens f.params ++ mark [] ')' :: semicolonTokens f.body) r := by
    intro r
    have hend : Spells (mark [] ')' :: semicolonTokens f.body) r :=
      Spells.cons (spells_glued (by decide) _) (spells_semicolonTokens f.body r)
    refine Spells.append ?_ hend
    rw [Token.render_cons]
    exact spells_paramsTokens f.params (by decide) _
  have hnames : ∀ r, Breaks (Token.render
      (f.nameTokens ++ (paramsTokens f.params ++ mark [] ')' :: semicolonTokens f.body)) ++ r) := by
    intro r
    rw [Token.render_append, List.append_assoc]
    exact f.breaks_nameTokens _
  have htail : Spells (f.headerTail ++ braceTokens f.body) after :=
    Spells.append (Spells.append (spells_more f.more (hnames _))
      (Spells.append (f.spells_nameTokens _) (hparams _))) (spells_braceTokens f.body after)
  refine Spells.cons (spells_word hg (isWord_keyword f.first) ?_) htail
  rw [Token.render_append, List.append_assoc, headerTail]
  cases f.more with
  | nil => exact hnames _
  | cons q more => exact breaks_space _

theorem neutral_tail (f : Callable) :
    Neutral '{' '}' (f.headerTail ++ braceTokens f.body) := by
  have hmore : Neutral '{' '}' (f.more.map fun q => word [' '] q.text) := by
    induction f.more with
    | nil => exact Neutral.nil
    | cons q more ih => exact Neutral.word _ _ ih
  have hnames : Neutral '{' '}' f.nameTokens := by
    refine Neutral.append ?_ (Neutral.word _ _ (Neutral.cons rfl rfl Neutral.nil))
    cases f.result with
    | none => exact Neutral.nil
    | some t => exact t.neutral (.inr ⟨rfl, rfl⟩) [' ']
  refine Neutral.append (hmore.append (hnames.append ?_)) (neutral_braceTokens f.body)
  exact (neutral_paramsTokens f.params (.inr ⟨rfl, rfl⟩)).append
    (Neutral.cons rfl rfl (neutral_semicolonTokens f.body))

theorem neutral (f : Callable) (gap : List Char) : Neutral '{' '}' (f.tokens gap) :=
  .word _ _ f.neutral_tail

/-! ### Reading one back -/

theorem kind?_nameTokens (f : Callable) (rest : List Token) :
    ∀ t ∈ (f.nameTokens ++ rest).head?, kind? t = none ∧ t.isWord "static" = false := by
  rw [nameTokens]
  cases f.result with
  | none =>
    rintro _ ⟨⟩
    exact ⟨f.ident.kind?_word _, f.ident.isWord_word _ (by decide)⟩
  | some t =>
    rintro _ ⟨⟩
    exact ⟨t.ident.kind?_word _, t.ident.isWord_word _ (by decide)⟩

/-- The second token decides whether a name is a constructor or a type. -/
theorem exists_nameTokens (f : Callable) :
    ∃ t u ts, f.nameTokens = t :: u :: ts ∧ u.isPunct ':' = false ∧
      u.isPunct '(' = f.result.isNone := by
  rw [nameTokens]
  cases f.result with
  | none => exact ⟨_, _, _, rfl, rfl, rfl⟩
  | some t =>
    rw [resultTokens, TypeName.tokens]
    cases t.dims with
    | zero => exact ⟨_, _, _, rfl, isPunct_word .., isPunct_word ..⟩
    | succ n => exact ⟨_, _, _, rfl, rfl, rfl⟩

theorem skipMarker_nameTokens (f : Callable) (rest : List Token) :
    skipMarker (f.nameTokens ++ rest) = f.nameTokens ++ rest := by
  obtain ⟨t, u, ts, h, hu, -⟩ := f.exists_nameTokens
  simp [h, skipMarker, hu]

/-- Without a result a function is read back only where constructors are allowed. -/
theorem resultAndName?_nameTokens (f : Callable) {constructors : Bool}
    (hc : constructors = true ∨ f.result.isSome = true) (rest : List Token) :
    resultAndName? constructors (f.nameTokens ++ rest)
      = some (f.returnType, f.ident.name, mark [] '(' :: rest) := by
  have hcall : callFollows (f.nameTokens ++ rest) = f.result.isNone := by
    obtain ⟨t, u, ts, h, -, hu⟩ := f.exists_nameTokens
    rw [h]
    exact hu
  rw [resultAndName?, hcall, returnType, nameTokens]
  cases hr : f.result with
  | none =>
    have hc : constructors = true := by simpa [hr] using hc
    simp [hc, resultTokens, ident?_word]
  | some t =>
    have ht : typeName? (t.tokens [' '] ++ word [' '] f.ident.text :: mark [] '(' :: rest)
        = some (t.name, word [' '] f.ident.text :: mark [] '(' :: rest) :=
      typeName?_tokens t [' '] (by simp)
    simp [resultTokens, ht, ident?_word]

theorem oneLine_header (f : Callable) : OneLine f.header := by
  have hfirst : OneLine f.first.keyword.toList := by
    cases f.first <;> decide
  have hmore : OneLine (f.more.flatMap fun q => ' ' :: q.text) := by
    refine .flatMap fun q _ => .cons (by decide) ?_
    exact oneLine_of_isIdentChar q.isWord.2
  have hresult : OneLine (resultText f.result) := by
    cases f.result with
    | none => decide
    | some t => exact .cons (by decide) t.oneLine
  have hend : OneLine (')' :: semicolon f.body) := .cons (by decide) (oneLine_semicolon f.body)
  have hname : OneLine (' ' :: f.ident.text) := .cons (by decide) f.ident.oneLine
  have hparams : OneLine ('(' :: paramsText f.params) :=
    .cons (by decide) (oneLine_paramsText f.params)
  exact ((((hfirst.append hmore).append hresult).append hname).append hparams).append hend

theorem noReturn (f : Callable) : '\r' ∉ f.text :=
  List.not_mem_append (fun h => (f.oneLine_header _ h).2 rfl) (noReturn_bodyText f.body)

theorem headerTail_append (f : Callable) (rest : List Token) :
    f.headerTail ++ rest
      = f.more.map (fun q => word [' '] q.text) ++ (f.nameTokens ++
        (paramsTokens f.params ++ mark [] ')' :: (semicolonTokens f.body ++ rest))) := by
  simp [headerTail]

/-- What is read back from the tokens of a function. The first of them may open a line. -/
theorem function?_tokens (f : Callable) (constructors : Bool)
    (hc : constructors = true ∨ f.result.isSome = true) {t : Token}
    (ht : t.isWord f.first.keyword = true) (rest : List Token) :
    function? constructors (t :: (f.headerTail ++ (braceTokens f.body ++ rest)))
      = some (⟨f.kind, f.returnType, f.ident.name, paramsTokens f.params,
          String.ofList f.header⟩, rest) := by
  have hkind : kind? t = some f.first := (kind?_of_isWord ht).trans f.first.ofKeyword?_keyword
  -- The body stays unquoted, whatever follows it.
  have hquote := quote_of_isWord ht f.render_headerTail f.oneLine_header
    (braceTokens f.body ++ rest)
  rw [headerTail_append] at hquote ⊢
  have hskip := skipKeywords_more f.more f.first (f.kind?_nameTokens (paramsTokens f.params ++
    mark [] ')' :: (semicolonTokens f.body ++ (braceTokens f.body ++ rest))))
  simp [function?, hkind, hskip, skipMarker_nameTokens,
    f.resultAndName?_nameTokens hc, group?_paramsTokens, ending?_tokens, hquote, kind]

end Callable

end PawnApi.Print
