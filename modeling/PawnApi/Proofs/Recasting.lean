/-
  PawnApi.Proofs.Recasting

  Readers under a change of tokens.

  A change of tokens that keeps their kinds, the texts of all but literals, and which of them
  touch (`KeepsForm`) does not change what any reader finds, only the tokens it finds it in:
  every reader commutes with the change. The texts that are copied into an entry may differ,
  and a `View` says how closely they are looked at. If the change keeps what the view shows
  of them (`Shows`), a declaration is found before the change exactly if one is found after
  it, and through the view the two are the same (`functionAt?_map`, `methodmapAt?_map`,
  `typedefAt?_map`).
-/
import Mathlib.Data.Option.Basic
import PawnApi.Proofs.Nesting
import PawnApi.Proofs.ParamPhrases
import PawnApi.Proofs.Trimming

namespace PawnApi.Source

/-- A change of tokens that readers do not notice. -/
structure KeepsForm (f : Token → Token) : Prop where
  kind_eq : ∀ t, (f t).kind = t.kind
  /-- Only what stands inside a literal may change. -/
  text_eq : ∀ t, t.kind ≠ .str → t.kind ≠ .char → (f t).text = t.text
  /-- Tokens that touch go on to touch. -/
  gap_eq : ∀ t, (f t).gap.isEmpty = t.gap.isEmpty

/-- A group with each of its tokens changed. -/
def Group.map (f : Token → Token) (g : Group) : Group :=
  ⟨g.inside.map f, f g.closer, g.rest.map f⟩

namespace KeepsForm

variable {f : Token → Token} (hf : KeepsForm f)

include hf

/-! ## Single tokens -/

theorem isPunct_eq (t : Token) (c : Char) : (f t).isPunct c = t.isPunct c := by
  by_cases hk : t.kind = .punct
  · have htext : (f t).text = t.text := hf.text_eq t (by simp [hk]) (by simp [hk])
    rw [Token.isPunct, Token.isPunct, hf.kind_eq, htext]
  · simp [Token.isPunct, hf.kind_eq, hk]

theorem text_eq_of_ident {t : Token} (hk : t.kind = .ident) : (f t).text = t.text :=
  hf.text_eq t (by simp [hk]) (by simp [hk])

theorem isWord_eq (t : Token) (w : String) : (f t).isWord w = t.isWord w := by
  by_cases hk : t.kind = .ident
  · rw [Token.isWord, Token.isWord, hf.kind_eq, hf.text_eq_of_ident hk]
  · simp [Token.isWord, hf.kind_eq, hk]

theorem ident?_eq (t : Token) : (f t).ident? = t.ident? := by
  by_cases hk : t.kind = .ident
  · rw [Token.ident?, Token.ident?, hf.kind_eq, hf.text_eq_of_ident hk]
  · simp [Token.ident?, hf.kind_eq, hk]

/-! ## Groups and statements -/

theorem closeGroup?_map (opn cls : Char) (d : Nat) (ts : List Token) :
    closeGroup? opn cls d (ts.map f) = (closeGroup? opn cls d ts).map (Group.map f) := by
  induction ts generalizing d with
  | nil => rfl
  | cons t ts ih =>
    have hpush : ∀ k, ((closeGroup? opn cls k ts).map (Group.map f)).map (Group.push (f t))
        = ((closeGroup? opn cls k ts).map (Group.push t)).map (Group.map f) := by
      intro k
      rw [Option.map_map, Option.map_map]
      rfl
    rw [List.map_cons, closeGroup?, closeGroup?, hf.isPunct_eq, hf.isPunct_eq, ih, ih, ih,
      hpush, hpush, hpush]
    split
    · rfl
    split
    · split <;> rfl
    · rfl

theorem group?_map (opn cls : Char) (ts : List Token) :
    group? opn cls (ts.map f) = (group? opn cls ts).map (Group.map f) := by
  cases ts with
  | nil => rfl
  | cons t ts =>
    rw [List.map_cons, group?, group?, hf.isPunct_eq, hf.closeGroup?_map]
    split <;> rfl

theorem dimensions?_map (ts : List Token) :
    dimensions? (ts.map f)
      = (dimensions? ts).map fun p => (p.1.map (Group.map f), p.2.map f) := by
  fun_induction dimensions? ts with
  | case1 => rw [List.map_nil, dimensions?]; rfl
  | case2 t ts ht hn =>
    rw [List.map_cons, dimensions?, if_pos ((hf.isPunct_eq t '[').trans ht)]
    have hclose := hf.closeGroup?_map '[' ']' 0 ts
    rw [hn] at hclose
    -- the bracket is closed in neither list, or in both
    split
    · rfl
    · rename_i g hg
      rw [hclose] at hg
      simp at hg
  | case3 t ts ht g hg ih =>
    rw [List.map_cons, dimensions?, if_pos ((hf.isPunct_eq t '[').trans ht)]
    have hclose := hf.closeGroup?_map '[' ']' 0 ts
    rw [hg] at hclose
    split
    · rename_i hn
      rw [hclose] at hn
      simp at hn
    · rename_i g' hg'
      obtain rfl : g.map f = g' := Option.some.inj (hclose.symm.trans hg')
      rw [show (g.map f).rest = g.rest.map f from rfl, ih, Option.map_map, Option.map_map]
      rfl
  | case4 t ts ht =>
    rw [List.map_cons, dimensions?, if_neg (by rwa [hf.isPunct_eq])]
    rfl

theorem dropSemicolon_map (ts : List Token) :
    dropSemicolon (ts.map f) = (dropSemicolon ts).map f := by
  cases ts with
  | nil => rfl
  | cons t ts =>
    rw [List.map_cons, dropSemicolon, dropSemicolon, hf.isPunct_eq]
    split <;> rfl

theorem dropStatement_map (ts : List Token) :
    dropStatement (ts.map f) = (dropStatement ts).map f := by
  induction ts with
  | nil => rfl
  | cons t ts ih =>
    rw [List.map_cons, dropStatement, dropStatement, hf.isPunct_eq, hf.isPunct_eq,
      hf.closeGroup?_map, ih]
    split
    · cases closeGroup? '{' '}' 0 ts with
      | none => rfl
      | some g => exact hf.dropSemicolon_map g.rest
    split <;> rfl

end KeepsForm

end PawnApi.Source

namespace PawnApi.Param

open PawnApi.Source

/-! ## Parameter lists -/

section

variable {f : Token → Token} (hf : KeepsForm f)

include hf

theorem after_map (n : Nesting) (afterIdent : Bool) (t : Token) (rest : List Token) :
    n.after afterIdent (f t) (rest.map f) = n.after afterIdent t rest := by
  have hangle : opensAngle afterIdent (f t) (rest.map f) = opensAngle afterIdent t rest := by
    rw [opensAngle, opensAngle, hf.gap_eq, List.head?_map]
    cases rest.head? with
    | none => rfl
    | some u => simp [hf.gap_eq, hf.isPunct_eq]
  simp only [Nesting.after, hf.isPunct_eq, hangle]

/-- A list is cut at the same commas. -/
theorem cut_map (n : Nesting) (afterIdent : Bool) (ts : List Token) :
    cut n afterIdent (ts.map f)
      = ((cut n afterIdent ts).1.map f, (cut n afterIdent ts).2.map (List.map f)) := by
  induction ts generalizing n afterIdent with
  | nil => rfl
  | cons t ts ih =>
    rw [List.map_cons, cut, cut, hf.isPunct_eq, after_map hf, hf.kind_eq, ih, ih]
    split <;> rfl

theorem pieces_map (ts : List Token) : pieces (ts.map f) = (pieces ts).map (List.map f) := by
  simp only [pieces, cut_map hf, ← List.map_cons, List.filter_map]
  congr 2
  funext x
  cases x <;> rfl

theorem dropWord_map (w : String) (ts : List Token) :
    dropWord w (ts.map f) = (dropWord w ts).map f := by
  cases ts with
  | nil => rfl
  | cons t ts =>
    rw [List.map_cons, dropWord, dropWord, hf.isWord_eq]
    split <;> rfl

theorem dropPunct_map (c : Char) (ts : List Token) :
    dropPunct c (ts.map f) = (dropPunct c ts).map f := by
  cases ts with
  | nil => rfl
  | cons t ts =>
    rw [List.map_cons, dropPunct, dropPunct, hf.isPunct_eq]
    split <;> rfl

theorem name?_map (ts : List Token) :
    name? (ts.map f) = (name? ts).map fun p => (p.1, p.2.map f) := by
  cases ts with
  | nil => rfl
  | cons t ts =>
    rw [List.map_cons, name?, name?, hf.ident?_eq, hf.dimensions?_map]
    cases t.ident? with
    | none => rfl
    | some name =>
      cases dimensions? ts with
      | none => rfl
      | some p => rfl

end

end PawnApi.Param

namespace PawnApi.Declaration

open PawnApi.Source

/-! ## Parts of declarations -/

section

variable {f : Token → Token} (hf : KeepsForm f)

include hf

theorem ident?_map (ts : List Token) :
    ident? (ts.map f) = (ident? ts).map fun p => (p.1, p.2.map f) := by
  cases ts with
  | nil => rfl
  | cons t ts =>
    rw [List.map_cons, ident?, ident?, hf.ident?_eq, Option.map_map]
    rfl

theorem kind?_eq (t : Token) : kind? (f t) = kind? t := by
  rw [kind?, kind?, hf.ident?_eq]

theorem skipKeywords_map (kind : FunctionKind) (ts : List Token) :
    skipKeywords kind (ts.map f) = ((skipKeywords kind ts).1, (skipKeywords kind ts).2.map f) := by
  induction ts generalizing kind with
  | nil => rfl
  | cons t ts ih =>
    rw [List.map_cons, skipKeywords, skipKeywords, kind?_eq hf, hf.isWord_eq]
    split
    · exact ih _
    split
    · exact ih kind
    · rfl

theorem skipMarker_map (ts : List Token) : skipMarker (ts.map f) = (skipMarker ts).map f := by
  match ts with
  | [] => rfl
  | [_] => rfl
  | t :: u :: ts =>
    rw [List.map_cons, List.map_cons, skipMarker, skipMarker, hf.isWord_eq, hf.isPunct_eq]
    split <;> rfl

theorem callFollows_map (ts : List Token) : callFollows (ts.map f) = callFollows ts := by
  match ts with
  | [] => rfl
  | [_] => rfl
  | t :: u :: ts => exact hf.isPunct_eq u '('

theorem ending?_map (ts : List Token) :
    ending? (ts.map f) = (ending? ts).map fun e => (e.1.map f, e.2.map f) := by
  cases ts with
  | nil => rfl
  | cons t ts =>
    rw [List.map_cons, ending?, ending?, hf.isPunct_eq, hf.isPunct_eq, hf.closeGroup?_map]
    split
    · rfl
    split
    · cases closeGroup? '{' '}' 0 ts <;> rfl
    · rfl

theorem propertyFollows?_map (ts : List Token) :
    propertyFollows? (ts.map f) = (propertyFollows? ts).map (List.map f) := by
  match ts with
  | [] => rfl
  | [_] => rfl
  | t :: u :: ts =>
    rw [List.map_cons, List.map_cons, propertyFollows?, propertyFollows?, hf.isWord_eq,
      hf.isWord_eq]
    split <;> rfl

theorem parent?_map (ts : List Token) :
    parent? (ts.map f) = (parent? ts).map fun p => (p.1, p.2.map f) := by
  cases ts with
  | nil => rfl
  | cons t ts =>
    rw [List.map_cons, parent?, parent?, hf.isPunct_eq, ident?_map hf]
    split
    · rw [Option.map_map, Option.map_map]
      rfl
    · rfl

theorem bodyTokens_map (ts : List Token) : bodyTokens (ts.map f) = (bodyTokens ts).map f := by
  induction ts with
  | nil => rfl
  | cons t ts ih =>
    rw [List.map_cons, bodyTokens, bodyTokens, hf.isPunct_eq, hf.isPunct_eq, hf.closeGroup?_map,
      ih]
    split
    · cases closeGroup? '{' '}' 0 ts <;> rfl
    split <;> rfl

theorem functionTypeFollows?_map (ts : List Token) :
    functionTypeFollows? (ts.map f) = (functionTypeFollows? ts).map (List.map f) := by
  match ts with
  | [] => rfl
  | [_] => rfl
  | t :: u :: ts =>
    rw [List.map_cons, List.map_cons, functionTypeFollows?, functionTypeFollows?, hf.isPunct_eq,
      hf.isWord_eq]
    split <;> rfl

theorem afterSemicolon?_map (ts : List Token) :
    afterSemicolon? (ts.map f) = (afterSemicolon? ts).map (List.map f) := by
  cases ts with
  | nil => rfl
  | cons t ts =>
    rw [List.map_cons, afterSemicolon?, afterSemicolon?, hf.isPunct_eq]
    split <;> rfl

/-- Declarations may start at the same places. -/
theorem statementsFrom_map (hline : ∀ t, (f t).opensLine = t.opensLine) (d : Nat)
    (ts : List Token) : statementsFrom d (ts.map f) = (statementsFrom d ts).map (List.map f) := by
  induction ts generalizing d with
  | nil => rfl
  | cons t ts ih =>
    have hdepth : depthAfter d (f t) = depthAfter d t := by
      simp only [depthAfter, hf.isPunct_eq]
    rw [List.map_cons, statementsFrom, statementsFrom, hline, hdepth, ih]
    split <;> rfl

end

end PawnApi.Declaration

namespace PawnApi

/-! ## Views of entries -/

/-- How closely the texts of an entry are looked at. -/
structure View where
  /-- Return types and types of properties. -/
  type : String → String
  paramType : String → String
  default : Option String → Option String
  written : String → String

def Param.view (v : View) (p : Param) : Param :=
  { p with type := v.paramType p.type, default := v.default p.default }

def Method.view (v : View) (m : Method) : Method :=
  { m with
    returnType := v.type m.returnType
    params := m.params.map (Param.view v)
    fullDeclaration := v.written m.fullDeclaration }

def Property.view (v : View) (p : Property) : Property :=
  { p with type := v.type p.type }

def Shape.view (v : View) : Shape → Shape
  | .function kind type params => .function kind (v.type type) (params.map (Param.view v))
  | .methodmap inherits methods properties =>
    .methodmap inherits (methods.map (Method.view v)) (properties.map (Property.view v))
  | .typedef type params => .typedef (v.type type) (params.map (Param.view v))

def Entry.view (v : View) (e : Entry) : Entry :=
  { e with shape := e.shape.view v, fullDeclaration := v.written e.fullDeclaration }

def Declaration.Member.view (v : View) : Member → Member
  | .method m => .method (m.view v)
  | .property p => .property (p.view v)

def Declaration.Found.view (v : View) (d : Found) : Found :=
  { d with shape := d.shape.view v, written := v.written d.written }

end PawnApi

namespace PawnApi.Source

/-- A change of tokens that readers do not notice, and that a view does not show in the texts
    that they copy. -/
structure Shows (v : View) (f : Token → Token) : Prop extends KeepsForm f where
  type_eq : ∀ (t : Token) (gs : List Group), t.kind = .ident →
    v.type (String.ofList ((f t).text ++
        (gs.map (Group.map f)).flatMap fun g => '[' :: Text.trim g.text ++ [']']))
      = v.type (String.ofList (t.text ++ gs.flatMap fun g => '[' :: Text.trim g.text ++ [']']))
  paramType_eq : ∀ ts : List Token,
    v.paramType (String.ofList (Text.unblank (Token.span (ts.map f))))
      = v.paramType (String.ofList (Text.unblank (Token.span ts)))
  default_eq : ∀ (t : Token) (ts : List Token),
    v.default (Param.defaultText? (some (f t, ts.map f)))
      = v.default (Param.defaultText? (some (t, ts)))
  written_eq : ∀ ts : List Token,
    v.written (String.ofList (Text.onOneLine (Token.span (ts.map f))))
      = v.written (String.ofList (Text.onOneLine (Token.span ts)))

end PawnApi.Source

namespace PawnApi

/-! ## Readings that correspond -/

/-- Computations that go on alike from corresponding answers correspond. -/
theorem rel_bind {α β γ δ : Type} {R : α → β → Prop} {S : γ → δ → Prop} {x : Option α}
    {y : Option β} (h : Option.Rel R x y) {g : α → Option γ} {k : β → Option δ}
    (hgk : ∀ a b, R a b → Option.Rel S (g a) (k b)) :
    Option.Rel S (x.bind g) (y.bind k) := by
  cases h with
  | none => exact .none
  | some h => exact hgk _ _ h

theorem rel_map {α β : Type} (x : Option α) (g : α → β) :
    Option.Rel (fun a b => b = g a) x (x.map g) := by
  cases x with
  | none => exact .none
  | some a => exact .some rfl

theorem rel_map_map {α β γ δ : Type} {R : α → β → Prop} {S : γ → δ → Prop} {x : Option α}
    {y : Option β} (h : Option.Rel R x y) {g : α → γ} {k : β → δ}
    (hgk : ∀ a b, R a b → S (g a) (k b)) : Option.Rel S (x.map g) (y.map k) := by
  cases h with
  | none => exact .none
  | some h => exact .some (hgk _ _ h)

theorem map_eq_of_rel {α β γ : Type} {g : α → γ} {k : β → γ} {x : Option α} {y : Option β}
    (h : Option.Rel (fun a b => k b = g a) x y) : y.map k = x.map g := by
  cases h with
  | none => rfl
  | some h => exact congrArg some h

end PawnApi

namespace PawnApi.Param

open PawnApi.Source

section

variable {v : View} {f : Token → Token} (hf : Shows v f)

include hf

theorem type?_rel (ts : List Token) :
    Option.Rel (fun p q => v.paramType q.1 = v.paramType p.1 ∧ q.2 = p.2.map f)
      (type? ts) (type? (ts.map f)) := by
  cases ts with
  | nil => exact .none
  | cons t ts =>
    rw [List.map_cons, type?, type?, hf.ident?_eq, hf.dimensions?_map]
    cases t.ident? with
    | none => exact .none
    | some w =>
      refine rel_bind (rel_map (dimensions? ts) _) ?_
      rintro ⟨gs, rest⟩ _ rfl
      refine .some ⟨?_, rfl⟩
      -- the change keeps how many tokens there are, so the same ones are the type
      have h := hf.paramType_eq (t :: ts.take (ts.length - rest.length))
      rw [List.map_cons, List.map_take] at h
      simp only [List.length_map]
      exact h

theorem default?_rel (ts : List Token) :
    Option.Rel (fun d d' => v.default d' = v.default d) (default? ts) (default? (ts.map f)) := by
  cases ts with
  | nil => exact .some rfl
  | cons t ts =>
    have h := hf.default_eq t ts
    rw [List.map_cons, default?, default?, hf.isPunct_eq]
    split
    · simp only [defaultText?, Option.bind_some] at h
      simp only [List.isEmpty_iff]
      exact .some h
    · exact .none

/-- A piece declares a parameter before the change exactly if it does after it. -/
theorem ofPiece?_rel (ts : List Token) :
    Option.Rel (fun p q => q.view v = p.view v) (ofPiece? ts) (ofPiece? (ts.map f)) := by
  rw [ofPiece?, ofPiece?, dropWord_map hf.toKeepsForm]
  refine rel_bind (type?_rel hf _) ?_
  rintro ⟨type, rest⟩ ⟨type', rest'⟩ ⟨htype, hrest⟩
  obtain rfl : rest' = rest.map f := hrest
  simp only [dropPunct_map hf.toKeepsForm, name?_map hf.toKeepsForm]
  refine rel_bind (rel_map _ _) ?_
  rintro ⟨name, rest⟩ _ rfl
  refine rel_bind (default?_rel hf _) ?_
  intro d d' hd
  refine .some ?_
  simp only [Param.view] at htype ⊢
  rw [htype, hd]

/-- The parameters of a list are the same through the view. -/
theorem ofTokens_map (tags : Doc.Tags) (ts : List Token) :
    (ofTokens tags (ts.map f)).map (Param.view v) = (ofTokens tags ts).map (Param.view v) := by
  have hdoc : ∀ p : Param, (document tags p).view v = document tags (p.view v) := fun _ => rfl
  have hpiece : ∀ x : List Token,
      ((ofPiece? (x.map f)).map (document tags)).map (Param.view v)
        = ((ofPiece? x).map (document tags)).map (Param.view v) := by
    intro x
    have h := congrArg (Option.map (document tags)) (map_eq_of_rel (ofPiece?_rel hf x))
    simpa only [Option.map_map, Function.comp_def, hdoc] using h
  simp only [ofTokens, pieces_map hf.toKeepsForm, List.map_filterMap, List.filterMap_map,
    Function.comp_def, hpiece]

end

end PawnApi.Param

namespace PawnApi.Declaration

open PawnApi.Source

/-! ## Declarations -/

section

variable {v : View} {f : Token → Token} (hf : Shows v f)

include hf

theorem typeName?_rel (ts : List Token) :
    Option.Rel (fun p q => v.type q.1 = v.type p.1 ∧ q.2 = p.2.map f)
      (typeName? ts) (typeName? (ts.map f)) := by
  cases ts with
  | nil => exact .none
  | cons t ts =>
    rw [List.map_cons, typeName?, typeName?, hf.ident?_eq, hf.dimensions?_map]
    cases hw : t.ident? with
    | none => exact .none
    | some w =>
      have hk : t.kind = .ident := (Param.ident?_eq_some_iff.1 hw).1
      refine rel_bind (rel_map (dimensions? ts) _) ?_
      rintro ⟨gs, rest⟩ _ rfl
      exact .some ⟨hf.type_eq t gs hk, rfl⟩

theorem resultAndName?_rel (constructors : Bool) (ts : List Token) :
    Option.Rel
      (fun p q => v.type q.1 = v.type p.1 ∧ q.2.1 = p.2.1 ∧ q.2.2 = p.2.2.map f)
      (resultAndName? constructors ts) (resultAndName? constructors (ts.map f)) := by
  rw [resultAndName?, resultAndName?, callFollows_map hf.toKeepsForm]
  split
  · rw [ident?_map hf.toKeepsForm]
    refine rel_bind (rel_map _ _) ?_
    rintro ⟨name, rest⟩ _ rfl
    exact .some ⟨rfl, rfl, rfl⟩
  · refine rel_bind (typeName?_rel hf ts) ?_
    rintro ⟨type, rest⟩ ⟨type', rest'⟩ ⟨htype, hrest⟩
    obtain rfl : rest' = rest.map f := hrest
    simp only [ident?_map hf.toKeepsForm]
    refine rel_bind (rel_map _ _) ?_
    rintro ⟨name, rest⟩ _ rfl
    exact .some ⟨htype, rfl, rfl⟩

theorem written_quote (ts rest : List Token) :
    v.written (quote (ts.map f) (rest.map f)) = v.written (quote ts rest) := by
  have h := hf.written_eq (ts.take (ts.length - rest.length))
  rw [List.map_take] at h
  simpa only [quote, List.length_map] using h

/-- A function is found before the change exactly if one is found after it, with the
    changed tokens as its parameters. -/
theorem function?_rel (constructors : Bool) (ts : List Token) :
    Option.Rel
      (fun p q => q.1.kind = p.1.kind ∧ v.type q.1.returnType = v.type p.1.returnType ∧
        q.1.name = p.1.name ∧ q.1.params = p.1.params.map f ∧
        v.written q.1.written = v.written p.1.written ∧ q.2 = p.2.map f)
      (function? constructors ts) (function? constructors (ts.map f)) := by
  cases ts with
  | nil => exact .none
  | cons t us =>
    rw [List.map_cons, function?, function?, kind?_eq hf.toKeepsForm]
    cases kind? t with
    | none => exact .none
    | some first =>
      simp only [Option.bind_eq_bind, Option.bind_some, skipKeywords_map hf.toKeepsForm,
        skipMarker_map hf.toKeepsForm]
      refine rel_bind (resultAndName?_rel hf constructors _) ?_
      rintro ⟨type, name, rest⟩ ⟨type', name', rest'⟩ ⟨htype, hname, hrest⟩
      obtain rfl : name' = name := hname
      obtain rfl : rest' = rest.map f := hrest
      simp only [hf.group?_map]
      refine rel_bind (rel_map _ _) ?_
      rintro g _ rfl
      rw [show (g.map f).rest = g.rest.map f from rfl, ending?_map hf.toKeepsForm]
      refine rel_bind (rel_map _ _) ?_
      rintro ⟨unquoted, after⟩ _ rfl
      exact .some ⟨rfl, htype, rfl, rfl, written_quote hf (t :: us) unquoted, rfl⟩

theorem functionAt?_map (tags : Doc.Tags) (ts : List Token) :
    (functionAt? tags (ts.map f)).map (Found.view v)
      = (functionAt? tags ts).map (Found.view v) := by
  apply map_eq_of_rel
  refine rel_bind (function?_rel hf false ts) ?_
  rintro ⟨p, _⟩ ⟨q, _⟩ ⟨hkind, htype, hname, hparams, hwritten, -⟩
  refine .some ?_
  simp only at hkind htype hname hparams hwritten
  simp only [Found.view, Shape.view, hparams, Param.ofTokens_map hf, Found.mk.injEq,
    Shape.function.injEq, and_true]
  exact ⟨hname, ⟨hkind, htype⟩, hwritten⟩

/-! ## Members -/

theorem toMethod_view {p q : Function} (hkind : q.kind = p.kind)
    (htype : v.type q.returnType = v.type p.returnType) (hname : q.name = p.name)
    (hparams : q.params = p.params.map f) (hwritten : v.written q.written = v.written p.written) :
    q.toMethod.view v = p.toMethod.view v := by
  simp only [Function.toMethod, Method.view, hkind, htype, hname, hparams, hwritten,
    Param.ofTokens_map hf]

theorem property?_rel (ts : List Token) :
    Option.Rel (fun p q => q.1.view v = p.1.view v ∧ q.2 = p.2.map f)
      (property? ts) (property? (ts.map f)) := by
  refine rel_bind (typeName?_rel hf ts) ?_
  rintro ⟨type, rest⟩ ⟨type', rest'⟩ ⟨htype, hrest⟩
  obtain rfl : rest' = rest.map f := hrest
  simp only [ident?_map hf.toKeepsForm]
  refine rel_bind (rel_map _ _) ?_
  rintro ⟨name, rest⟩ _ rfl
  refine .some ⟨?_, rfl⟩
  simp only [Property.view, Property.mk.injEq, true_and]
  exact htype

/-- One step through a body. -/
theorem memberAt?_rel (ts : List Token) :
    Option.Rel (fun p q => q.1.view v = p.1.view v ∧ q.2 = p.2.map f)
      (memberAt? ts) (memberAt? (ts.map f)) := by
  rw [memberAt?, memberAt?, propertyFollows?_map hf.toKeepsForm]
  cases propertyFollows? ts with
  | some rest =>
    refine rel_map_map (property?_rel hf rest) ?_
    rintro ⟨p, r⟩ ⟨q, r'⟩ ⟨hproperty, hrest⟩
    obtain rfl : r' = r.map f := hrest
    exact ⟨congrArg Member.property hproperty, hf.dropStatement_map r⟩
  | none =>
    refine rel_map_map (function?_rel hf true ts) ?_
    rintro ⟨p, r⟩ ⟨q, r'⟩ ⟨hkind, htype, hname, hparams, hwritten, hrest⟩
    exact ⟨congrArg Member.method (toMethod_view hf hkind htype hname hparams hwritten), hrest⟩

/-- The members of a body are the same through the view. -/
theorem members_map (ts : List Token) :
    (members (ts.map f)).map (Member.view v) = (members ts).map (Member.view v) := by
  -- by the length of what is left: both steps make progress
  induction hn : ts.length using Nat.strong_induction_on generalizing ts with
  | _ n ih =>
    subst hn
    have hstep := memberAt?_rel hf ts
    generalize hm : memberAt? ts = m, hm' : memberAt? (ts.map f) = m' at hstep
    cases hstep with
    | some h =>
      rw [members_of_memberAt? hm, members_of_memberAt? hm', List.map_cons, List.map_cons, h.1,
        h.2, ih _ (length_lt_of_memberAt? hm) _ rfl]
    | none =>
      rw [members_of_memberAt?_eq_none hm, members_of_memberAt?_eq_none hm', hf.dropStatement_map]
      cases ts with
      | nil => rfl
      | cons t us => exact ih _ (length_dropStatement_lt t us) _ rfl

theorem methods_map (ts : List Token) :
    (methods (ts.map f)).map (Method.view v) = (methods ts).map (Method.view v) := by
  have hmethod : ∀ m : Member, m.method?.map (Method.view v) = (m.view v).method? := by
    intro m
    cases m <;> rfl
  have h := congrArg (List.filterMap Member.method?) (members_map hf ts)
  simpa only [methods, List.map_filterMap, hmethod, List.filterMap_map, Function.comp_def] using h

theorem properties_map (ts : List Token) :
    (properties (ts.map f)).map (Property.view v) = (properties ts).map (Property.view v) := by
  have hproperty : ∀ m : Member, m.property?.map (Property.view v) = (m.view v).property? := by
    intro m
    cases m <;> rfl
  have h := congrArg (List.filterMap Member.property?) (members_map hf ts)
  simpa only [properties, List.map_filterMap, hproperty, List.filterMap_map, Function.comp_def]
    using h

theorem methodmapAt?_map (ts : List Token) :
    (methodmapAt? (ts.map f)).map (Found.view v) = (methodmapAt? ts).map (Found.view v) := by
  cases ts with
  | nil => rfl
  | cons t us =>
    apply map_eq_of_rel
    rw [List.map_cons, methodmapAt?, methodmapAt?, hf.isWord_eq]
    cases t.isWord "methodmap" with
    | false => exact .none
    | true =>
      rw [guard_of_eq_true rfl, ident?_map hf.toKeepsForm]
      simp only [Option.bind_eq_bind, Option.bind_some]
      refine rel_bind (rel_map _ _) ?_
      rintro ⟨name, rest⟩ _ rfl
      simp only [parent?_map hf.toKeepsForm]
      refine rel_bind (rel_map _ _) ?_
      rintro ⟨inherits, rest⟩ _ rfl
      have hwritten := written_quote hf (t :: us) rest
      rw [List.map_cons] at hwritten
      refine .some ?_
      simp only [Found.view, Shape.view, bodyTokens_map hf.toKeepsForm, methods_map hf,
        properties_map hf, hwritten]

theorem typedefAt?_map (tags : Doc.Tags) (ts : List Token) :
    (typedefAt? tags (ts.map f)).map (Found.view v) = (typedefAt? tags ts).map (Found.view v) := by
  cases ts with
  | nil => rfl
  | cons t us =>
    apply map_eq_of_rel
    rw [List.map_cons, typedefAt?, typedefAt?, hf.isWord_eq]
    cases t.isWord "typedef" with
    | false => exact .none
    | true =>
      rw [guard_of_eq_true rfl, ident?_map hf.toKeepsForm]
      simp only [Option.bind_eq_bind, Option.bind_some]
      refine rel_bind (rel_map _ _) ?_
      rintro ⟨name, rest⟩ _ rfl
      simp only [functionTypeFollows?_map hf.toKeepsForm]
      refine rel_bind (rel_map _ _) ?_
      rintro rest _ rfl
      refine rel_bind (typeName?_rel hf rest) ?_
      rintro ⟨type, rest⟩ ⟨type', rest'⟩ ⟨htype, hrest⟩
      obtain rfl : rest' = rest.map f := hrest
      simp only [hf.group?_map]
      refine rel_bind (rel_map _ _) ?_
      rintro g _ rfl
      rw [show (g.map f).rest = g.rest.map f from rfl, afterSemicolon?_map hf.toKeepsForm]
      refine rel_bind (rel_map _ _) ?_
      rintro after _ rfl
      have hwritten := written_quote hf (t :: us) after
      have hparams := Param.ofTokens_map hf tags g.inside
      rw [List.map_cons] at hwritten
      refine .some ?_
      simp only [Found.view, Shape.view, Group.map, hparams, hwritten]
      rw [htype]

end

/-! ## What stands before the first token

    Where the first token keeps its text, and whether it opens its line, what else is changed
    about it does not matter. -/

section

open PawnApi.Param (KeepsText span_modifyHead)

variable {f : Token → Token} (hf : KeepsText f)

include hf

theorem quote_modifyHead (ts rest : List Token) : quote (ts.modifyHead f) rest = quote ts rest := by
  cases ts with
  | nil => rfl
  | cons t us =>
    have hspan : ∀ n, Token.span ((f t :: us).take n) = Token.span ((t :: us).take n) := by
      intro n
      cases n with
      | zero => rfl
      | succ n => exact span_modifyHead hf (t :: us.take n)
    rw [List.modifyHead_cons, quote, quote, List.length_cons, List.length_cons, hspan]

theorem functionAt?_modifyHead (tags : Doc.Tags) (ts : List Token) :
    functionAt? tags (ts.modifyHead f) = functionAt? tags ts := by
  cases ts with
  | nil => rfl
  | cons t us =>
    have hkind : kind? (f t) = kind? t := by
      rw [kind?, kind?, Token.ident?, Token.ident?, (hf t).1, (hf t).2]
    have hquote := quote_modifyHead hf (t :: us)
    rw [List.modifyHead_cons] at hquote
    simp only [functionAt?, List.modifyHead_cons, function?, hkind, hquote]

theorem methodmapAt?_modifyHead (ts : List Token) :
    methodmapAt? (ts.modifyHead f) = methodmapAt? ts := by
  cases ts with
  | nil => rfl
  | cons t us =>
    have hword : (f t).isWord "methodmap" = t.isWord "methodmap" := by
      rw [Token.isWord, Token.isWord, (hf t).1, (hf t).2]
    have hquote := quote_modifyHead hf (t :: us)
    rw [List.modifyHead_cons] at hquote
    simp only [methodmapAt?, List.modifyHead_cons, hword, hquote]

theorem typedefAt?_modifyHead (tags : Doc.Tags) (ts : List Token) :
    typedefAt? tags (ts.modifyHead f) = typedefAt? tags ts := by
  cases ts with
  | nil => rfl
  | cons t us =>
    have hword : (f t).isWord "typedef" = t.isWord "typedef" := by
      rw [Token.isWord, Token.isWord, (hf t).1, (hf t).2]
    have hquote := quote_modifyHead hf (t :: us)
    rw [List.modifyHead_cons] at hquote
    simp only [typedefAt?, List.modifyHead_cons, hword, hquote]

theorem findSome?_modifyHead {α : Type} {reader : List Token → Option α}
    (hreader : ∀ us : List Token, reader (us.modifyHead f) = reader us) {ts : List Token}
    (hline : ∀ t ∈ ts.head?, (f t).opensLine = t.opensLine) :
    (statements (ts.modifyHead f)).findSome? reader = (statements ts).findSome? reader := by
  cases ts with
  | nil => rfl
  | cons t us =>
    have hdepth : depthAfter 0 (f t) = depthAfter 0 t := by
      simp only [depthAfter, hf.isPunct_eq]
    have hhead : reader (f t :: us) = reader (t :: us) := hreader (t :: us)
    rw [List.modifyHead_cons, statements, statements, statementsFrom, statementsFrom, hdepth,
      hline t rfl]
    split
    · rw [List.findSome?_cons, List.findSome?_cons, hhead]
    · rfl

/-- What a code declares does not depend on what stands before its first token. -/
theorem find?_modifyHead (tags : Doc.Tags) {ts : List Token}
    (hline : ∀ t ∈ ts.head?, (f t).opensLine = t.opensLine) :
    find? tags (ts.modifyHead f) = find? tags ts := by
  rw [find?, find?, findSome?_modifyHead hf (functionAt?_modifyHead hf tags) hline,
    findSome?_modifyHead hf (methodmapAt?_modifyHead hf) hline,
    findSome?_modifyHead hf (typedefAt?_modifyHead hf tags) hline]

end

end PawnApi.Declaration
