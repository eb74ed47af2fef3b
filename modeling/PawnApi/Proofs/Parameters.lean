/-
  PawnApi.Proofs.Parameters

  Printed parameter lists and how they are read back.

  For each part of a parameter `tokens` lists the tokens it is printed as. Their text is
  the printed text, and they are spelled by it. Brackets are closed within each part and
  no part holds a comma at which the list is cut, so the list is cut into its parameters
  and each of them is read as it was declared (`ofTokens_paramsTokens`).
-/
import PawnApi.Proofs.Print

namespace PawnApi.Source

/-! ## Tokens that leave the brackets as they are -/

/-- Whether tokens close what they open, wherever they stand. -/
def Neutral (opn cls : Char) (ts : List Token) : Prop :=
  ∀ d, level? opn cls d ts = some d

namespace Neutral

variable {opn cls : Char} {ts us : List Token}

theorem nil : Neutral opn cls [] := fun _ => rfl

theorem append (h₁ : Neutral opn cls ts) (h₂ : Neutral opn cls us) :
    Neutral opn cls (ts ++ us) := by
  intro d
  rw [level?_append, h₁ d, Option.bind_some, h₂ d]

theorem cons {t : Token} (ho : t.isPunct opn = false) (hc : t.isPunct cls = false)
    (h : Neutral opn cls ts) : Neutral opn cls (t :: ts) := by
  intro d
  rw [level?, ho, hc]
  exact h d

theorem word (gap w : List Char) (h : Neutral opn cls ts) :
    Neutral opn cls (Source.word gap w :: ts) :=
  cons (isPunct_word gap w opn) (isPunct_word gap w cls) h

theorem flatMap {α : Type} {f : α → List Token} {xs : List α}
    (h : ∀ x ∈ xs, Neutral opn cls (f x)) : Neutral opn cls (xs.flatMap f) := by
  induction xs with
  | nil => exact nil
  | cons x xs ih =>
    rw [List.flatMap_cons]
    exact (h x (by simp)).append (ih fun y hy => h y (by simp [hy]))

end Neutral

theorem neutral_of_balanced {opn cls : Char} {s : List Char} (h : Balanced opn cls (tokens s))
    (gap : List Char) :
    Neutral opn cls ((lexFrom false s).tokens.modifyHead (Token.behind gap)) := by
  intro d
  rw [level?_modifyHead (f := Token.behind gap) (fun _ _ => rfl), level?_lexFrom]
  simpa using level?_add h d

/-- A body between braces leaves the braces as they are. -/
theorem neutral_block {body : List Char} (hb : ClosedBody body) (gap : List Char) :
    Neutral '{' '}' (block gap body) := by
  intro d
  rw [block, level?, isPunct_mark, level?_append, hb.level?_eq]
  simp [level?]

end PawnApi.Source

namespace PawnApi.Param

open PawnApi.Source

/-! ## Tokens without a top-level comma -/

/-- Whether the tokens `ts` hold no comma at which a list is cut, and leave nothing open
    before `rest`. `a` and `b` say whether an identifier stands before and at the end. -/
def Passes (a : Bool) (ts : List Token) (b : Bool) (rest : List Token) : Prop :=
  cut {} a (ts ++ rest) = (ts ++ (cut {} b rest).1, (cut {} b rest).2)

namespace Passes

variable {a b : Bool} {ts us rest : List Token}

theorem append {c : Bool} (h₁ : Passes a ts b (us ++ rest)) (h₂ : Passes b us c rest) :
    Passes a (ts ++ us) c rest := by
  unfold Passes at *
  rw [List.append_assoc, h₁, h₂]
  simp

theorem word (a : Bool) (gap w : List Char) (rest : List Token) :
    Passes a [Source.word gap w] ((Source.word gap w).kind = .ident) rest := by
  simp [Passes, cut, Nesting.after, -kind_word]

/-- Marks other than commas, brackets and angles leave everything as it is. -/
theorem mark {c : Char} (hc : c ∉ [',', '(', ')', '[', ']', '{', '}', '<', '>']) (a : Bool)
    (gap : List Char) (rest : List Token) : Passes a [Source.mark gap c] false rest := by
  simp only [List.mem_cons, List.not_mem_nil, or_false, not_or] at hc
  simp [Passes, cut, Nesting.after, hc]

/-- A dimension is passed over as a whole. -/
theorem dimension (a : Bool) (ws : List Token) (hw : ∀ t ∈ ws, ∃ w, t = Source.word [] w)
    (rest : List Token) :
    Passes a (Source.mark [] '[' :: (ws ++ [Source.mark [] ']'])) false rest := by
  have inside : ∀ (b : Bool), cut ⟨1, 0⟩ b (ws ++ Source.mark [] ']' :: rest)
      = (ws ++ Source.mark [] ']' :: (cut {} false rest).1, (cut {} false rest).2) := by
    induction ws with
    | nil =>
      intro b
      simp [cut, Nesting.after, Nesting.isClosed]
    | cons t ws ih =>
      intro b
      obtain ⟨w, rfl⟩ := hw t (by simp)
      rw [List.cons_append, cut]
      simp [Nesting.after, ih fun t ht => hw t (by simp [ht])]
  rw [Passes, List.cons_append, List.append_assoc, List.singleton_append, cut]
  simp [Nesting.after, inside]

end Passes

/-- Tokens that are not cut stay together, if what follows does not touch them with a
    comparison, and what they leave open is open in what follows. -/
theorem exists_cut_append {n : Nesting} {a : Bool} {ts rest : List Token}
    (hc : cut n a ts = (ts, []))
    (hr : ∀ t ∈ rest.head?, t.isPunct '<' = false ∧ t.isPunct '=' = false) :
    ∃ b, cut n a (ts ++ rest)
      = (ts ++ (cut (nesting n a ts) b rest).1, (cut (nesting n a ts) b rest).2) := by
  induction ts generalizing n a with
  | nil => exact ⟨a, rfl⟩
  | cons t ts ih =>
    -- An angle looks one token ahead, which is the only way `rest` could matter.
    have hafter : n.after a t (ts ++ rest) = n.after a t ts := by
      cases ts with
      | cons u ts => rfl
      | nil =>
        cases rest with
        | nil => rfl
        | cons r rest =>
          obtain ⟨h₁, h₂⟩ := hr r rfl
          simp [Nesting.after, opensAngle, h₁, h₂]
    rw [cut] at hc
    split at hc
    · simp at hc
    · rename_i hcomma
      simp only [Prod.mk.injEq, List.cons.injEq, true_and] at hc
      obtain ⟨b, hb⟩ := ih (Prod.ext hc.1 hc.2)
      refine ⟨b, ?_⟩
      rw [List.cons_append, cut, if_neg hcomma, hafter, hb]
      rfl

/-! Where no identifier stands before the first token, its gap and its line do not matter. -/

/-- Whether a change of tokens leaves them their kind and their text. -/
def KeepsText (f : Token → Token) : Prop :=
  ∀ t, (f t).kind = t.kind ∧ (f t).text = t.text

theorem keepsText_behind (gap : List Char) : KeepsText (Token.behind gap) :=
  fun _ => ⟨rfl, rfl⟩

namespace KeepsText

variable {f g : Token → Token} (hf : KeepsText f)

include hf

theorem comp (hg : KeepsText g) : KeepsText (g ∘ f) :=
  fun t => ⟨(hg (f t)).1.trans (hf t).1, (hg (f t)).2.trans (hf t).2⟩

theorem isPunct_eq (t : Token) (c : Char) : (f t).isPunct c = t.isPunct c := by
  rw [Token.isPunct, Token.isPunct, (hf t).1, (hf t).2]

theorem after_eq (n : Nesting) (t : Token) (rest : List Token) :
    n.after false (f t) rest = n.after false t rest := by
  simp [Nesting.after, opensAngle, hf.isPunct_eq]

theorem nesting_eq (n : Nesting) (ts : List Token) :
    nesting n false (ts.modifyHead f) = nesting n false ts := by
  cases ts with
  | nil => rfl
  | cons t ts => rw [List.modifyHead_cons, nesting, nesting, hf.after_eq, (hf t).1]

theorem cut_eq (n : Nesting) (ts : List Token) :
    cut n false (ts.modifyHead f) = ((cut n false ts).1.modifyHead f, (cut n false ts).2) := by
  cases ts with
  | nil => rfl
  | cons t ts =>
    rw [List.modifyHead_cons, cut, cut, hf.isPunct_eq, hf.after_eq, (hf t).1]
    split <;> rfl

end KeepsText

end PawnApi.Param

namespace PawnApi.Print

open PawnApi.Source PawnApi.Param

/-! ## Expressions -/

/-- The bracket pairs that have to be closed in every part of a header. -/
def IsPair (opn cls : Char) : Prop :=
  opn = '(' ∧ cls = ')' ∨ opn = '{' ∧ cls = '}'

namespace Expr

/-- The tokens of an expression behind a gap. -/
def tokens (gap : List Char) (e : Expr) : List Token :=
  (lexFrom false e.text).tokens.modifyHead (Token.behind gap)

theorem tail_eq (e : Expr) : (lexFrom false e.text).tail = [] := by
  have htext := Lexed.text_lexFrom false e.text
  rw [Lexed.text] at htext
  have hspace : ∀ c ∈ (lexFrom false e.text).tail, isSpace c = true := by
    rw [tail_lexFrom]
    exact e.commentFree.2
  cases hl : (lexFrom false e.text).tail.getLast? with
  | none => exact List.getLast?_eq_none_iff.1 hl
  | some c =>
    -- The last character would be a blank.
    have hs := hspace c (List.mem_of_getLast? hl)
    have hb : Text.isBlank c = false := by
      refine e.isBlank_last c ?_
      rw [← htext, List.getLast?_append, hl]
      rfl
    simp only [isSpace, Bool.or_eq_true, decide_eq_true_eq] at hs
    rcases hs with (((rfl | rfl) | rfl) | rfl) | rfl <;> simp [Text.isBlank] at hb

theorem render_lexFrom (e : Expr) : Token.render (lexFrom false e.text).tokens = e.text := by
  have htext := Lexed.text_lexFrom false e.text
  rwa [Lexed.text, tail_eq, List.append_nil] at htext

theorem exists_cons (e : Expr) : ∃ t ts, (lexFrom false e.text).tokens = t :: ts := by
  refine List.exists_cons_of_ne_nil fun h => e.ne_nil ?_
  rw [← e.render_lexFrom, h]
  rfl

theorem render_tokens (gap : List Char) (e : Expr) :
    Token.render (e.tokens gap) = gap ++ e.text := by
  obtain ⟨t, ts, h⟩ := e.exists_cons
  have hr := e.render_lexFrom
  rw [h] at hr
  rw [tokens, h, ← hr]
  simp [Token.behind]

theorem spells (e : Expr) {gap : List Char} (hg : ∀ c ∈ gap, isSpace c = true) {c : Char}
    (hc : isMark c = true) (r : List Char) : Spells (e.tokens gap) (c :: r) := by
  have h := e.commentFree.spells e.isOutside e.tail_eq hc r
  obtain ⟨t, ts, ht⟩ := e.exists_cons
  rw [tokens, ht]
  rw [ht] at h
  exact h.behind hg

theorem neutral (e : Expr) {opn cls : Char} (hp : IsPair opn cls) (gap : List Char) :
    Neutral opn cls (e.tokens gap) := by
  rcases hp with ⟨rfl, rfl⟩ | ⟨rfl, rfl⟩
  · exact neutral_of_balanced e.parentheses gap
  · exact neutral_of_balanced e.braces gap

/-- An expression holds no comma at which a list is cut. -/
theorem exists_passes (e : Expr) (gap : List Char) {rest : List Token}
    (hr : ∀ t ∈ rest.head?, t.isPunct '<' = false ∧ t.isPunct '=' = false) :
    ∃ b, Passes false (e.tokens gap) b rest := by
  -- Cutting looks at kinds and marks, so the gap and the flag of the first token are free.
  obtain ⟨f, hf, htokens⟩ : ∃ f, KeepsText f ∧
      e.tokens gap = (Source.tokens e.text).modifyHead f := by
    have hflag : KeepsText fun t => { t with opensLine := false || t.gap.contains '\n' } :=
      fun _ => ⟨rfl, rfl⟩
    refine ⟨_, hflag.comp (keepsText_behind gap), ?_⟩
    rw [tokens, tokens_lexFrom, List.modifyHead_modifyHead]
  have hcut : cut {} false (e.tokens gap) = (e.tokens gap, []) := by
    rw [htokens, hf.cut_eq, e.cut_eq]
  have hnesting : nesting {} false (e.tokens gap) = {} := by
    rw [htokens, hf.nesting_eq, e.nesting_eq]
  obtain ⟨b, hb⟩ := exists_cut_append hcut hr
  rw [hnesting] at hb
  exact ⟨b, hb⟩

end Expr

/-! ## Types -/

theorem Ident.wordKind_eq (i : Ident) : wordKind i.text = .ident := by
  obtain ⟨c, r, hc⟩ := List.exists_cons_of_ne_nil i.isWord.1
  have hl := i.isLetter_head c (by rw [hc]; rfl)
  simp [wordKind, hc, hl]

/-- The tokens of empty dimensions. -/
def dimensions (n : Nat) : List Token :=
  (List.replicate n [mark [] '[', mark [] ']']).flatten

theorem dimensions_succ (n : Nat) :
    dimensions (n + 1) = mark [] '[' :: mark [] ']' :: dimensions n := rfl

namespace TypeName

/-- The tokens of a type behind a gap. -/
def tokens (gap : List Char) (t : TypeName) : List Token :=
  word gap t.ident.text :: dimensions t.dims

theorem render_dimensions (n : Nat) :
    Token.render (dimensions n) = (List.replicate n ['[', ']']).flatten := by
  induction n with
  | zero => rfl
  | succ n ih =>
    rw [dimensions_succ]
    simp [ih, List.replicate_succ]

theorem render_tokens (gap : List Char) (t : TypeName) :
    Token.render (t.tokens gap) = gap ++ t.text := by
  simp [tokens, text, render_dimensions]

theorem spells_dimensions (n : Nat) (after : List Char) : Spells (dimensions n) after := by
  induction n with
  | zero => exact .nil after
  | succ n ih =>
    rw [dimensions_succ]
    exact .cons (spells_glued (by decide) _) (.cons (spells_glued (by decide) _) ih)

theorem breaks_dimensions {after : List Char} (ha : Breaks after) (n : Nat) :
    Breaks (Token.render (dimensions n) ++ after) := by
  cases n with
  | zero => exact ha
  | succ n =>
    intro c hc
    rw [dimensions_succ] at hc
    obtain rfl : '[' = c := by simpa using hc
    rfl

theorem spells (t : TypeName) {gap after : List Char} (hg : ∀ c ∈ gap, isSpace c = true)
    (ha : Breaks after) : Spells (t.tokens gap) after :=
  .cons (spells_word hg t.ident.isWord (breaks_dimensions ha t.dims))
    (spells_dimensions t.dims after)

theorem neutral (t : TypeName) {opn cls : Char} (hp : IsPair opn cls) (gap : List Char) :
    Neutral opn cls (t.tokens gap) := by
  have hdims : ∀ n, Neutral opn cls (dimensions n) := by
    intro n
    induction n with
    | zero => exact .nil
    | succ n ih =>
      rw [dimensions_succ]
      rcases hp with ⟨rfl, rfl⟩ | ⟨rfl, rfl⟩ <;> exact .cons rfl rfl (.cons rfl rfl ih)
  exact .word _ _ (hdims t.dims)

theorem exists_passes (t : TypeName) (a : Bool) (gap : List Char) (rest : List Token) :
    ∃ b, Passes a (t.tokens gap) b rest := by
  have hdims : ∀ n a, ∃ b, Passes a (dimensions n) b rest := by
    intro n
    induction n with
    | zero => exact fun a => ⟨a, rfl⟩
    | succ n ih =>
      intro a
      obtain ⟨b, hb⟩ := ih false
      exact ⟨b, (Passes.dimension a [] (by simp) _).append hb⟩
  obtain ⟨b, hb⟩ := hdims t.dims _
  exact ⟨b, (Passes.word a gap t.ident.text _).append hb⟩

end TypeName

/-! ## Parameters -/

/-- The tokens of a size. -/
def Size.tokens (s : Size) : List Token :=
  mark [] '[' :: ((if s.chars.isEmpty then [] else [word [] s.chars]) ++ [mark [] ']'])

namespace Size

theorem render_tokens (s : Size) : Token.render s.tokens = s.text := by
  cases h : s.chars <;> simp [tokens, text, h]

theorem spells (s : Size) (after : List Char) : Spells s.tokens after := by
  refine .cons (spells_glued (by decide) _) (.append ?_ (spells_glued (by decide) _))
  split
  · exact .nil _
  · rename_i h
    refine spells_word (by simp) ⟨by simpa using h, s.isIdentChar_of_mem⟩ ?_
    rw [render_mark]
    exact breaks_cons rfl _

theorem neutral (s : Size) {opn cls : Char} (hp : IsPair opn cls) : Neutral opn cls s.tokens := by
  have hword : Neutral opn cls (if s.chars.isEmpty then [] else [word [] s.chars]) := by
    split
    · exact .nil
    · exact .word _ _ .nil
  rcases hp with ⟨rfl, rfl⟩ | ⟨rfl, rfl⟩ <;>
    exact .cons rfl rfl (hword.append (.cons rfl rfl .nil))

theorem passes (s : Size) (a : Bool) (rest : List Token) : Passes a s.tokens false rest := by
  refine Passes.dimension a _ (fun t ht => ?_) rest
  split at ht
  · simp at ht
  · exact ⟨s.chars, by simpa using ht⟩

end Size

theorem render_flatMap {α : Type} {f : α → List Token} {g : α → List Char} (xs : List α)
    (h : ∀ x ∈ xs, Token.render (f x) = g x) : Token.render (xs.flatMap f) = xs.flatMap g := by
  induction xs with
  | nil => rfl
  | cons x xs ih =>
    rw [List.flatMap_cons, List.flatMap_cons, Token.render_append, h x (by simp),
      ih fun y hy => h y (by simp [hy])]

namespace ParamDecl

/-- The tokens through the type. -/
def front (gap : List Char) (p : ParamDecl) : List Token :=
  if p.isConst then word gap "const".toList :: p.type.tokens [' '] else p.type.tokens gap

/-- The tokens of the name, without its sizes. -/
def middle (p : ParamDecl) : List Token :=
  if p.byReference then [mark [' '] '&', word [] p.ident.text] else [word [' '] p.ident.text]

/-- The tokens of the default. -/
def back (p : ParamDecl) : List Token :=
  match p.default with
  | none => []
  | some e => mark [' '] '=' :: e.tokens [' ']

/-- The tokens of a parameter behind a gap. -/
def tokens (gap : List Char) (p : ParamDecl) : List Token :=
  p.front gap ++ (p.middle ++ (p.sizes.flatMap Size.tokens ++ p.back))

theorem render_back (p : ParamDecl) : Token.render p.back = defaultText p.default := by
  unfold back
  cases p.default with
  | none => rfl
  | some e => simp [defaultText, Expr.render_tokens]

theorem render_tokens (gap : List Char) (p : ParamDecl) :
    Token.render (p.tokens gap) = gap ++ p.text := by
  have hfront : Token.render (p.front gap)
      = gap ++ ((if p.isConst then "const ".toList else []) ++ p.type.text) := by
    unfold front
    split <;> simp [TypeName.render_tokens]
  have hmiddle : Token.render p.middle
      = (if p.byReference then " &".toList else [' ']) ++ p.ident.text := by
    unfold middle
    split <;> simp
  have hsizes := render_flatMap p.sizes fun s _ => s.render_tokens
  simp only [tokens, Token.render_append, hfront, hmiddle, hsizes, render_back, text,
    List.append_assoc]

theorem breaks_back (p : ParamDecl) : Breaks (Token.render p.back) := by
  rw [render_back]
  cases p.default with
  | none =>
    intro c hc
    simp [defaultText] at hc
  | some e => exact breaks_cons rfl _

theorem breaks_sizes (ss : List Size) : Breaks (Token.render (ss.flatMap Size.tokens)) := by
  cases ss with
  | nil =>
    intro c hc
    simp at hc
  | cons s ss => exact breaks_cons rfl _

theorem spells (p : ParamDecl) {gap : List Char} (hg : ∀ c ∈ gap, isSpace c = true) {c : Char}
    (hc : isMark c = true) (r : List Char) : Spells (p.tokens gap) (c :: r) := by
  -- From the back, since a word is spelled only in front of something that ends it.
  have hcr : Breaks (c :: r) := breaks_cons (isNumberChar_of_isMark hc) r
  have hback : Spells p.back (c :: r) := by
    unfold back
    cases p.default with
    | none => exact .nil _
    | some e =>
      exact .cons (spells_mark isSpace_of_mem_space (by decide) _)
        (e.spells isSpace_of_mem_space hc r)
  have hsizes := Spells.flatMap p.sizes (fun s _ => s.spells) (Token.render p.back ++ c :: r)
  have hrest := hsizes.append hback
  have hbreaks : Breaks (Token.render (p.sizes.flatMap Size.tokens ++ p.back) ++ c :: r) := by
    rw [Token.render_append]
    exact ((breaks_sizes p.sizes).append p.breaks_back).append hcr
  have hmiddle :
      Spells p.middle (Token.render (p.sizes.flatMap Size.tokens ++ p.back) ++ c :: r) := by
    unfold middle
    split
    · exact .cons (spells_mark isSpace_of_mem_space (by decide) _)
        (spells_word (by simp) p.ident.isWord hbreaks)
    · exact spells_spaced p.ident.isWord hbreaks
  refine .append ?_ (hmiddle.append hrest)
  have hname : Breaks (Token.render (p.middle ++ (p.sizes.flatMap Size.tokens ++ p.back))
      ++ c :: r) := by
    unfold middle
    split <;> exact breaks_cons rfl _
  unfold front
  split
  · refine .cons (spells_word hg (by decide) ?_) (p.type.spells isSpace_of_mem_space hname)
    rw [TypeName.render_tokens]
    exact breaks_cons rfl _
  · exact p.type.spells hg hname

theorem neutral (p : ParamDecl) {opn cls : Char} (hp : IsPair opn cls) (gap : List Char) :
    Neutral opn cls (p.tokens gap) := by
  have hmark : ∀ (gap : List Char) (c : Char), c = '&' ∨ c = '=' →
      (mark gap c).isPunct opn = false ∧ (mark gap c).isPunct cls = false := by
    intro gap c hc
    rcases hp with ⟨rfl, rfl⟩ | ⟨rfl, rfl⟩ <;> rcases hc with rfl | rfl <;> exact ⟨rfl, rfl⟩
  have hname : Neutral opn cls [word [] p.ident.text] := .word _ _ .nil
  refine .append ?_ (.append ?_ (.append (.flatMap fun s _ => s.neutral hp) ?_))
  · unfold front
    split
    · exact .word _ _ (p.type.neutral hp _)
    · exact p.type.neutral hp _
  · unfold middle
    split
    · exact .cons (hmark _ _ (Or.inl rfl)).1 (hmark _ _ (Or.inl rfl)).2 hname
    · exact .word _ _ .nil
  · unfold back
    cases p.default with
    | none => exact .nil
    | some e =>
      exact .cons (hmark _ _ (Or.inr rfl)).1 (hmark _ _ (Or.inr rfl)).2 (e.neutral hp _)

/-- A parameter holds no comma at which the list is cut. -/
theorem exists_passes (p : ParamDecl) (gap : List Char) {rest : List Token}
    (hr : ∀ t ∈ rest.head?, t.isPunct '<' = false ∧ t.isPunct '=' = false) (a : Bool) :
    ∃ b, Passes a (p.tokens gap) b rest := by
  -- Each part leaves nothing open; whether it ends with a name is all that is handed on.
  have hback : ∀ a, ∃ b, Passes a p.back b rest := by
    intro a
    unfold back
    cases p.default with
    | none => exact ⟨a, rfl⟩
    | some e =>
      obtain ⟨b, hb⟩ := e.exists_passes [' '] hr
      exact ⟨b, (Passes.mark (by decide) a _ _).append hb⟩
  have hsizes : ∀ (ss : List Size) (rest : List Token) (a : Bool),
      ∃ b, Passes a (ss.flatMap Size.tokens) b rest := by
    intro ss
    induction ss with
    | nil => exact fun _ a => ⟨a, rfl⟩
    | cons s ss ih =>
      intro rest a
      obtain ⟨b, hb⟩ := ih rest false
      exact ⟨b, (s.passes a _).append hb⟩
  have hmiddle : ∀ (rest : List Token) (a : Bool), ∃ b, Passes a p.middle b rest := by
    intro rest a
    unfold middle
    split
    · exact ⟨_, (Passes.mark (by decide) a _ _).append (Passes.word _ _ _ _)⟩
    · exact ⟨_, Passes.word _ _ _ _⟩
  have hfront : ∀ rest : List Token, ∃ b, Passes a (p.front gap) b rest := by
    intro rest
    unfold front
    split
    · obtain ⟨b, hb⟩ := p.type.exists_passes _ [' '] rest
      exact ⟨b, (Passes.word a _ _ _).append hb⟩
    · exact p.type.exists_passes a gap rest
  obtain ⟨b₁, h₁⟩ := hfront _
  obtain ⟨b₂, h₂⟩ := hmiddle _ b₁
  obtain ⟨b₃, h₃⟩ := hsizes p.sizes _ b₂
  obtain ⟨b₄, h₄⟩ := hback b₃
  exact ⟨b₄, h₁.append (h₂.append (h₃.append h₄))⟩

end ParamDecl

/-- The tokens of a parameter list. -/
def paramsTokens : List ParamDecl → List Token
  | [] => []
  | p :: ps => p.tokens [] ++ ps.flatMap fun q => mark [] ',' :: q.tokens [' ']

theorem paramsText_cons (p : ParamDecl) (ps : List ParamDecl) :
    paramsText (p :: ps) = p.text ++ ps.flatMap fun q => ", ".toList ++ q.text := by
  induction ps generalizing p with
  | nil => simp [paramsText, List.intercalate]
  | cons q ps ih =>
    have h := ih q
    simp only [paramsText, List.map_cons, List.intercalate_cons_cons] at h ⊢
    rw [h]
    simp

theorem render_paramsTokens (ps : List ParamDecl) :
    Token.render (paramsTokens ps) = paramsText ps := by
  cases ps with
  | nil => rfl
  | cons p ps =>
    rw [paramsText_cons, paramsTokens, Token.render_append, ParamDecl.render_tokens,
      render_flatMap ps fun q _ => by
        rw [Token.render_cons, ParamDecl.render_tokens]]
    rfl

/-- Behind a parameter stands a mark: a comma or what follows the list. -/
theorem exists_mark_of_flatMap (ps : List ParamDecl) {c : Char} (hc : isMark c = true)
    (r : List Char) : ∃ c' r', isMark c' = true ∧
      Token.render (ps.flatMap fun q => mark [] ',' :: q.tokens [' ']) ++ c :: r = c' :: r' := by
  cases ps with
  | nil => exact ⟨c, r, hc, rfl⟩
  | cons q ps => exact ⟨',', _, by decide, rfl⟩

theorem spells_paramsTokens (ps : List ParamDecl) {c : Char} (hc : isMark c = true)
    (r : List Char) : Spells (paramsTokens ps) (c :: r) := by
  have hlater : ∀ ps : List ParamDecl,
      Spells (ps.flatMap fun q => mark [] ',' :: q.tokens [' ']) (c :: r) := by
    intro ps
    induction ps with
    | nil => exact .nil _
    | cons q ps ih =>
      rw [List.flatMap_cons, List.cons_append]
      refine .cons (spells_glued (by decide) _) (.append ?_ ih)
      obtain ⟨c', r', hc', hr'⟩ := exists_mark_of_flatMap ps hc r
      rw [hr']
      exact q.spells (by decide) hc' r'
  cases ps with
  | nil => exact .nil _
  | cons p ps =>
    refine .append ?_ (hlater ps)
    obtain ⟨c', r', hc', hr'⟩ := exists_mark_of_flatMap ps hc r
    rw [hr']
    exact p.spells (by simp) hc' r'

theorem neutral_paramsTokens (ps : List ParamDecl) {opn cls : Char} (hp : IsPair opn cls) :
    Neutral opn cls (paramsTokens ps) := by
  cases ps with
  | nil => exact .nil
  | cons p ps =>
    refine .append (p.neutral hp _) (.flatMap fun q _ => ?_)
    rcases hp with ⟨rfl, rfl⟩ | ⟨rfl, rfl⟩
    · exact .cons rfl rfl (q.neutral (Or.inl ⟨rfl, rfl⟩) _)
    · exact .cons rfl rfl (q.neutral (Or.inr ⟨rfl, rfl⟩) _)

/-- The tokens of the parameters one by one. -/
def paramPieces : List ParamDecl → List (List Token)
  | [] => []
  | p :: ps => p.tokens [] :: ps.map (ParamDecl.tokens [' '])

theorem ParamDecl.tokens_ne_nil (p : ParamDecl) (gap : List Char) : p.tokens gap ≠ [] := by
  unfold ParamDecl.tokens ParamDecl.front
  split <;> simp [TypeName.tokens]

theorem isPunct_head_flatMap (ps : List ParamDecl) :
    ∀ t ∈ (ps.flatMap fun q => mark [] ',' :: q.tokens [' ']).head?,
      t.isPunct '<' = false ∧ t.isPunct '=' = false := by
  cases ps with
  | nil => simp
  | cons q ps => simp

/-- A parameter list is cut into its parameters. -/
theorem pieces_paramsTokens (ps : List ParamDecl) :
    pieces (paramsTokens ps) = paramPieces ps := by
  -- Behind the first parameter everything is in pieces of its own, each after a comma.
  have hlater : ∀ (ps : List ParamDecl) (b : Bool),
      cut {} b (ps.flatMap fun q => mark [] ',' :: q.tokens [' '])
        = ([], ps.map (ParamDecl.tokens [' '])) := by
    intro ps
    induction ps with
    | nil => exact fun b => rfl
    | cons q ps ih =>
      intro b
      obtain ⟨b', hb⟩ := q.exists_passes [' '] (isPunct_head_flatMap ps) false
      rw [Passes, ih b'] at hb
      rw [List.flatMap_cons, List.cons_append, cut, if_pos (by rfl), hb]
      simp
  cases ps with
  | nil => rfl
  | cons p ps =>
    obtain ⟨b, hb⟩ := p.exists_passes [] (isPunct_head_flatMap ps) false
    rw [Passes, hlater ps b, List.append_nil] at hb
    rw [pieces, paramsTokens, hb]
    refine List.filter_eq_self.2 fun ts hts => ?_
    rcases List.mem_cons.1 hts with rfl | hts
    · simp [p.tokens_ne_nil]
    · obtain ⟨q, -, rfl⟩ := List.mem_map.1 hts
      simp [q.tokens_ne_nil]

/-! ## Dimensions read back -/

theorem dimensions?_cons {ts : List Token} {g : Group} (h : closeGroup? '[' ']' 0 ts = some g)
    (gap : List Char) :
    dimensions? (mark gap '[' :: ts) = (dimensions? g.rest).map fun p => (g :: p.1, p.2) := by
  have hopen : (mark gap '[').isPunct '[' = true := rfl
  rw [dimensions?, if_pos hopen]
  split
  · rename_i hn
    rw [h] at hn
    simp at hn
  · rename_i g' hg
    rw [h, Option.some.injEq] at hg
    rw [hg]

theorem exists_dimensions? {rest : List Token} (hr : ∀ t ∈ rest.head?, t.isPunct '[' = false)
    (n : Nat) : ∃ gs, dimensions? (dimensions n ++ rest) = some (gs, rest) ∧
      (gs.flatMap fun g => '[' :: Text.trim g.text ++ [']'])
        = (List.replicate n ['[', ']']).flatten := by
  induction n with
  | zero => exact ⟨[], dimensions?_of_head hr, rfl⟩
  | succ n ih =>
    obtain ⟨gs, hgs, htext⟩ := ih
    have hclose : closeGroup? '[' ']' 0 (mark [] ']' :: (dimensions n ++ rest))
        = some ⟨[], mark [] ']', dimensions n ++ rest⟩ := by
      simp [closeGroup?]
    refine ⟨⟨[], mark [] ']', dimensions n ++ rest⟩ :: gs, ?_, ?_⟩
    · rw [dimensions_succ, List.cons_append, List.cons_append, dimensions?_cons hclose, hgs]
      rfl
    · rw [List.flatMap_cons, htext]
      rfl

theorem exists_dimensions?_sizes {rest : List Token}
    (hr : ∀ t ∈ rest.head?, t.isPunct '[' = false) (ss : List Size) :
    ∃ gs, dimensions? (ss.flatMap Size.tokens ++ rest) = some (gs, rest) := by
  induction ss with
  | nil => exact ⟨[], dimensions?_of_head hr⟩
  | cons s ss ih =>
    obtain ⟨gs, hgs⟩ := ih
    have hbalanced :
        Source.Balanced '[' ']' (if s.chars.isEmpty then [] else [word [] s.chars]) := by
      split
      · rfl
      · simp [Source.Balanced, level?]
    have hclose := closeGroup?_of_balanced hbalanced (by decide) (c := mark [] ']') rfl
      (ss.flatMap Size.tokens ++ rest)
    rw [List.flatMap_cons, Size.tokens, List.append_assoc, List.cons_append, List.append_assoc,
      List.singleton_append, dimensions?_cons hclose, hgs]
    exact ⟨_, rfl⟩

/-! ## Types and names read back -/

theorem Ident.ident?_word (i : Ident) (gap : List Char) :
    (word gap i.text).ident? = some i.name := by
  rw [Token.ident?, kind_word, i.wordKind_eq, if_pos rfl]
  rfl

theorem Ident.isWord_word (i : Ident) (gap : List Char) {w : String} (hw : w ∈ reserved) :
    (word gap i.text).isWord w = false := by
  have hne : i.text ≠ w.toList := by
    intro h
    refine i.not_reserved ?_
    rw [h, String.ofList_toList]
    exact hw
  simp [Token.isWord, hne]

theorem typeName?_tokens (t : TypeName) (gap : List Char) {rest : List Token}
    (hr : ∀ t ∈ rest.head?, t.isPunct '[' = false) :
    Declaration.typeName? (t.tokens gap ++ rest) = some (t.name, rest) := by
  obtain ⟨gs, hgs, htext⟩ := exists_dimensions? hr t.dims
  rw [TypeName.tokens, List.cons_append, Declaration.typeName?, t.ident.ident?_word, hgs]
  simp only [Option.bind_eq_bind, Option.bind_some, Option.pure_def, htext]
  rfl

theorem ident?_word (i : Ident) (gap : List Char) (rest : List Token) :
    Declaration.ident? (word gap i.text :: rest) = some (i.name, rest) := by
  rw [Declaration.ident?, i.ident?_word]
  rfl

theorem isBlank_of_isIdentChar {c : Char} (h : isIdentChar c = true) : Text.isBlank c = false := by
  rw [Bool.eq_false_iff]
  intro hb
  have hn := isNumberChar_of_isBlank hb
  rw [isNumberChar_of_isIdentChar h] at hn
  simp at hn

theorem isBlank_of_mem_type (t : TypeName) : ∀ c ∈ t.text, Text.isBlank c = false := by
  intro c hc
  rcases List.mem_append.1 hc with hc | hc
  · exact isBlank_of_isIdentChar (t.ident.isWord.2 c hc)
  · obtain ⟨l, hl, hcl⟩ := List.mem_flatten.1 hc
    rw [List.eq_of_mem_replicate hl] at hcl
    simp only [List.mem_cons, List.not_mem_nil, or_false] at hcl
    rcases hcl with rfl | rfl <;> rfl

theorem type?_tokens (t : TypeName) (gap : List Char) {rest : List Token}
    (hr : ∀ t ∈ rest.head?, t.isPunct '[' = false) :
    type? (t.tokens gap ++ rest) = some (t.name, rest) := by
  obtain ⟨gs, hgs, -⟩ := exists_dimensions? hr t.dims
  have htake : (dimensions t.dims ++ rest).take ((dimensions t.dims ++ rest).length - rest.length)
      = dimensions t.dims := by
    rw [List.length_append, Nat.add_sub_cancel, List.take_left]
  have hspan : Token.span (word gap t.ident.text :: dimensions t.dims) = t.text := by
    rw [Token.span, TypeName.render_dimensions]
    rfl
  have hfilter : t.text.filter (fun c => !Text.isBlank c) = t.text :=
    List.filter_eq_self.2 fun c hc => by simp [isBlank_of_mem_type t c hc]
  rw [TypeName.tokens, List.cons_append, type?, t.ident.ident?_word, hgs]
  simp only [Option.bind_eq_bind, Option.bind_some, Option.pure_def, htake, hspan, hfilter]
  rfl

/-! ## Parameters read back -/

theorem dropWord_const (p : ParamDecl) (gap : List Char) (rest : List Token) :
    ∃ gap', dropWord "const" (p.front gap ++ rest) = p.type.tokens gap' ++ rest := by
  unfold ParamDecl.front
  split
  · exact ⟨[' '], by simp [dropWord, Token.isWord, wordKind, isLetter]⟩
  · refine ⟨gap, ?_⟩
    rw [TypeName.tokens, List.cons_append, dropWord,
      p.type.ident.isWord_word gap (by decide)]
    rfl

theorem name?_tokens (i : Ident) (gap : List Char) (ss : List Size) {rest : List Token}
    (hr : ∀ t ∈ rest.head?, t.isPunct '[' = false) :
    name? (word gap i.text :: (ss.flatMap Size.tokens ++ rest)) = some (i.name, rest) := by
  obtain ⟨gs, hgs⟩ := exists_dimensions?_sizes hr ss
  rw [name?, i.ident?_word, hgs]
  rfl

theorem Expr.trim_render (e : Expr) : Text.trim (Token.render (e.tokens [' '])) = e.text := by
  rw [e.render_tokens]
  refine (Text.trim_cons_of_isBlank (by decide) e.text).trans ?_
  exact Text.trim_eq_self_iff.2 ⟨e.isBlank_head, e.isBlank_last⟩

theorem default?_back (p : ParamDecl) :
    default? p.back = some (p.default.map fun e => String.ofList e.text) := by
  unfold ParamDecl.back
  cases p.default with
  | none => rfl
  | some e =>
    have hne : e.text.isEmpty = false := by simpa using e.ne_nil
    rw [default?, if_pos (by rfl), e.trim_render]
    simp [hne]

/-- A printed parameter is read as it was declared. -/
theorem ofPiece?_tokens (p : ParamDecl) (gap : List Char) :
    ofPiece? (p.tokens gap) = some (p.param {}) := by
  have hback : ∀ t ∈ p.back.head?, t.isPunct '[' = false := by
    unfold ParamDecl.back
    cases p.default with
    | none => simp
    | some e => simp
  have hmiddle : ∀ t ∈ (p.middle ++ (p.sizes.flatMap Size.tokens ++ p.back)).head?,
      t.isPunct '[' = false := by
    unfold ParamDecl.middle
    split <;> simp
  have hname : name? (dropPunct '&' (p.middle ++ (p.sizes.flatMap Size.tokens ++ p.back)))
      = some (p.ident.name, p.back) := by
    unfold ParamDecl.middle
    split
    · rw [List.cons_append, dropPunct, if_pos (by rfl)]
      exact name?_tokens p.ident [] p.sizes hback
    · rw [List.singleton_append, dropPunct, isPunct_word]
      exact name?_tokens p.ident [' '] p.sizes hback
  obtain ⟨gap', hdrop⟩ := dropWord_const p gap (p.middle ++ (p.sizes.flatMap Size.tokens ++ p.back))
  rw [ofPiece?, ParamDecl.tokens, hdrop, type?_tokens p.type gap' hmiddle]
  simp only [Option.bind_eq_bind, Option.bind_some, hname, default?_back]
  rfl

/-- A printed parameter list is read as it was declared. -/
theorem ofTokens_paramsTokens (tags : Doc.Tags) (ps : List ParamDecl) :
    ofTokens tags (paramsTokens ps) = ps.map (ParamDecl.param tags) := by
  have hread : (paramPieces ps).filterMap ofPiece? = ps.map (ParamDecl.param {}) := by
    cases ps with
    | nil => rfl
    | cons p ps =>
      have hlater : ofPiece? ∘ ParamDecl.tokens [' '] = some ∘ ParamDecl.param {} :=
        funext fun q => ofPiece?_tokens q [' ']
      rw [paramPieces, List.filterMap_cons, ofPiece?_tokens, List.filterMap_map, hlater,
        List.filterMap_eq_map, List.map_cons]
  rw [ofTokens, pieces_paramsTokens, hread, List.map_map]
  rfl

end PawnApi.Print
