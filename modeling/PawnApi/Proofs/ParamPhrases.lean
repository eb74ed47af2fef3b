/-
  PawnApi.Proofs.ParamPhrases

  Parameters as phrases of tokens.

  `ParamPhrase` is a parameter cut into its parts, with the proofs that they have the form
  of these parts, and `param` is what it declares. One piece of a list is read exactly if
  its tokens are a phrase (`ofPieceText?_eq_some_iff`), so the parameters of a list
  are those of the pieces that are phrases, in their order (`ofText_eq_iff`).
-/
import Mathlib.Data.List.Basic
import PawnApi.Proofs.Phrases
import PawnApi.Proofs.Pieces

namespace PawnApi.Param

open PawnApi.Source
open PawnApi.Declaration (TypePhrase)

/-! ## Optional tokens -/

/-- Dropping a word takes it off exactly if it is there. -/
theorem exists_of_dropWord (w : String) (ts : List Token) :
    ∃ o : Option Token, ts = o.toList ++ dropWord w ts ∧ (∀ t ∈ o, t.isWord w = true) ∧
      (o = none → ∀ t ∈ ts.head?, t.isWord w = false) := by
  cases ts with
  | nil => exact ⟨none, rfl, by simp, by simp⟩
  | cons t ts =>
    cases h : t.isWord w with
    | true => exact ⟨some t, by simp [dropWord, h], by simp [h], by simp⟩
    | false => exact ⟨none, by simp [dropWord, h], by simp, by simp [h]⟩

theorem dropWord_append {w : String} {o : Option Token} (ho : ∀ t ∈ o, t.isWord w = true)
    {ts : List Token} (hts : o = none → ∀ t ∈ ts.head?, t.isWord w = false) :
    dropWord w (o.toList ++ ts) = ts := by
  cases o with
  | some t => simp [dropWord, ho t rfl]
  | none =>
    cases ts with
    | nil => rfl
    | cons t ts => simp [dropWord, hts rfl t rfl]

theorem exists_of_dropPunct (c : Char) (ts : List Token) :
    ∃ o : Option Token, ts = o.toList ++ dropPunct c ts ∧ ∀ t ∈ o, t.isPunct c = true := by
  cases ts with
  | nil => exact ⟨none, rfl, by simp⟩
  | cons t ts =>
    cases h : t.isPunct c with
    | true => exact ⟨some t, by simp [dropPunct, h], by simp [h]⟩
    | false => exact ⟨none, by simp [dropPunct, h], by simp⟩

theorem dropPunct_append {c : Char} {o : Option Token} (ho : ∀ t ∈ o, t.isPunct c = true)
    {ts : List Token} (hts : ∀ t ∈ ts.head?, t.isPunct c = false) :
    dropPunct c (o.toList ++ ts) = ts := by
  cases o with
  | some t => simp [dropPunct, ho t rfl]
  | none =>
    cases ts with
    | nil => rfl
    | cons t ts => simp [dropPunct, hts t rfl]

/-! ## Types and names

    Both are an identifier with its dimensions. -/

/-- A type as a parameter has it: its text from the identifier through the last dimension,
    without blanks. -/
def typeText (p : TypePhrase) : String :=
  String.ofList ((Token.span p.tokens).filter fun c => !Text.isBlank c)

/-- The identifier of a name. -/
def nameText (p : TypePhrase) : String :=
  String.ofList p.word.text

theorem ident?_eq_some_iff {t : Token} {name : String} :
    t.ident? = some name ↔ t.kind = .ident ∧ name = String.ofList t.text := by
  rw [Token.ident?]
  split
  · simp [*, eq_comm]
  · simp [*]

theorem exists_of_type? {ts rest : List Token} {type : String} (h : type? ts = some (type, rest)) :
    ∃ p : TypePhrase, ts = p.tokens ++ rest ∧ type = typeText p := by
  cases ts with
  | nil => simp [type?] at h
  | cons t ts =>
    simp only [type?, Option.bind_eq_bind, Option.bind_eq_some_iff, Option.pure_def,
      Option.some.injEq, Prod.mk.injEq] at h
    obtain ⟨w, hw, ⟨gs, rest'⟩, hd, htype, rfl⟩ := h
    obtain ⟨bs, rfl, -⟩ := exists_of_dimensions? hd
    refine ⟨⟨t, bs, (ident?_eq_some_iff.1 hw).1⟩, rfl, ?_⟩
    rw [List.length_append, Nat.add_sub_cancel, List.take_left] at htype
    exact htype.symm

theorem type?_eq (p : TypePhrase) {rest : List Token}
    (h : ∀ t ∈ rest.head?, t.isPunct '[' = false) :
    type? (p.tokens ++ rest) = some (typeText p, rest) := by
  obtain ⟨gs, hgs, -⟩ := exists_dimensions?_eq p.dims h
  rw [TypePhrase.tokens, List.cons_append, type?, ident?_eq_some_iff.2 ⟨p.kind_word, rfl⟩, hgs]
  simp only [Option.bind_eq_bind, Option.bind_some, Option.pure_def, List.length_append,
    Nat.add_sub_cancel, List.take_left]
  rfl

theorem exists_of_name? {ts rest : List Token} {name : String} (h : name? ts = some (name, rest)) :
    ∃ p : TypePhrase, ts = p.tokens ++ rest ∧ name = nameText p := by
  cases ts with
  | nil => simp [name?] at h
  | cons t ts =>
    simp only [name?, Option.bind_eq_bind, Option.bind_eq_some_iff, Option.pure_def,
      Option.some.injEq, Prod.mk.injEq] at h
    obtain ⟨w, hw, ⟨gs, rest'⟩, hd, rfl, rfl⟩ := h
    obtain ⟨bs, rfl, -⟩ := exists_of_dimensions? hd
    obtain ⟨hk, rfl⟩ := ident?_eq_some_iff.1 hw
    exact ⟨⟨t, bs, hk⟩, rfl, rfl⟩

theorem name?_eq (p : TypePhrase) {rest : List Token}
    (h : ∀ t ∈ rest.head?, t.isPunct '[' = false) :
    name? (p.tokens ++ rest) = some (nameText p, rest) := by
  obtain ⟨gs, hgs, -⟩ := exists_dimensions?_eq p.dims h
  rw [TypePhrase.tokens, List.cons_append, name?, ident?_eq_some_iff.2 ⟨p.kind_word, rfl⟩, hgs]
  rfl

theorem isPunct_head_typePhrase (p : TypePhrase) (rest : List Token) (c : Char) :
    ∀ t ∈ (p.tokens ++ rest).head?, t.isPunct c = false := by
  intro t ht
  obtain rfl : p.word = t := Option.some.inj ht
  simp [Token.isPunct, p.kind_word]

/-! ## Defaults -/

/-- An equals sign and the tokens behind it, or nothing. -/
def defaultTokens : Option (Token × List Token) → List Token
  | none => []
  | some d => d.1 :: d.2

/-- The text behind the equals sign, trimmed; there is no default if nothing is left. -/
def defaultText? (d : Option (Token × List Token)) : Option String :=
  d.bind fun d =>
    if Text.trim (Token.render d.2) = [] then none
    else some (String.ofList (Text.trim (Token.render d.2)))

theorem default?_eq_some_iff {ts : List Token} {text : Option String} :
    default? ts = some text ↔
      ∃ d, ts = defaultTokens d ∧ (∀ x ∈ d, x.1.isPunct '=' = true) ∧ text = defaultText? d := by
  constructor
  · intro h
    cases ts with
    | nil => exact ⟨none, rfl, by simp, (Option.some.inj h).symm⟩
    | cons t ts =>
      rw [default?] at h
      split at h
      · refine ⟨some (t, ts), rfl, by simpa using ‹t.isPunct '=' = true›, ?_⟩
        rw [← Option.some.inj h]
        simp [defaultText?]
      · simp at h
  · rintro ⟨d, rfl, hd, rfl⟩
    cases d with
    | none => rfl
    | some d => simp [defaultTokens, default?, hd d rfl, defaultText?]

/-! ## Parameters -/

/-- A parameter cut into its parts. -/
structure ParamPhrase where
  const : Option Token
  type : TypePhrase
  ampersand : Option Token
  name : TypePhrase
  /-- The equals sign and the tokens behind it. -/
  default : Option (Token × List Token)
  isWord_const : ∀ t ∈ const, t.isWord "const" = true
  /-- The word at the front is always taken for the modifier. -/
  isWord_type : const = none → type.word.isWord "const" = false
  isPunct_ampersand : ∀ t ∈ ampersand, t.isPunct '&' = true
  isPunct_default : ∀ d ∈ default, d.1.isPunct '=' = true

namespace ParamPhrase

/-- The tokens behind the type. -/
def declarator (f : ParamPhrase) : List Token :=
  f.ampersand.toList ++ (f.name.tokens ++ defaultTokens f.default)

def tokens (f : ParamPhrase) : List Token :=
  f.const.toList ++ (f.type.tokens ++ f.declarator)

/-- The parameter that the phrase declares, with the description of the first tag that has
    its name. -/
def param (tags : Doc.Tags) (f : ParamPhrase) : Param where
  name := nameText f.name
  type := typeText f.type
  default := defaultText? f.default
  description := ((tags.param.find? fun t => t.name = nameText f.name).map
    Doc.ParamTag.description).getD ""

theorem isPunct_head_default (f : ParamPhrase) :
    ∀ t ∈ (defaultTokens f.default).head?, t.isPunct '[' = false := by
  intro t ht
  cases hd : f.default with
  | none => simp [hd, defaultTokens] at ht
  | some d =>
    rw [hd] at ht
    obtain rfl : d.1 = t := Option.some.inj ht
    exact Token.isPunct_of_ne (f.isPunct_default d hd) (by decide)

theorem isPunct_head_declarator (f : ParamPhrase) :
    ∀ t ∈ f.declarator.head?, t.isPunct '[' = false := by
  cases ha : f.ampersand with
  | none =>
    rw [declarator, ha]
    exact isPunct_head_typePhrase f.name _ '['
  | some a =>
    intro t ht
    rw [declarator, ha] at ht
    obtain rfl : a = t := Option.some.inj ht
    exact Token.isPunct_of_ne (f.isPunct_ampersand a ha) (by decide)

/-- A phrase is read as what it declares. -/
theorem ofPiece?_eq (f : ParamPhrase) (tags : Doc.Tags) :
    (ofPiece? f.tokens).map (document tags) = some (f.param tags) := by
  have hconst : dropWord "const" f.tokens = f.type.tokens ++ f.declarator := by
    refine dropWord_append f.isWord_const fun hnone t ht => ?_
    obtain rfl : f.type.word = t := Option.some.inj ht
    exact f.isWord_type hnone
  have hampersand : dropPunct '&' f.declarator = f.name.tokens ++ defaultTokens f.default :=
    dropPunct_append f.isPunct_ampersand (isPunct_head_typePhrase f.name _ '&')
  have hdefault : default? (defaultTokens f.default) = some (defaultText? f.default) :=
    default?_eq_some_iff.2 ⟨f.default, rfl, f.isPunct_default, rfl⟩
  rw [ofPiece?, hconst, type?_eq f.type f.isPunct_head_declarator]
  simp only [Option.bind_eq_bind, Option.bind_some, hampersand,
    name?_eq f.name f.isPunct_head_default, hdefault]
  rfl

end ParamPhrase

/-- What is read is a phrase. -/
theorem exists_of_ofPiece? {ts : List Token} {q : Param} (h : ofPiece? ts = some q) :
    ∃ f : ParamPhrase, ts = f.tokens := by
  simp only [ofPiece?, Option.bind_eq_bind, Option.bind_eq_some_iff] at h
  obtain ⟨⟨type, rest⟩, htype, ⟨name, rest'⟩, hname, text, hdefault, -⟩ := h
  dsimp only at hname hdefault
  obtain ⟨const, hts, hconst, hnone⟩ := exists_of_dropWord "const" ts
  obtain ⟨p, hp, -⟩ := exists_of_type? htype
  obtain ⟨ampersand, hrest, hampersand⟩ := exists_of_dropPunct '&' rest
  obtain ⟨n, hn, -⟩ := exists_of_name? hname
  obtain ⟨d, hd, hequals, -⟩ := default?_eq_some_iff.1 hdefault
  rw [hp, hrest, hn, hd] at hts
  refine ⟨⟨const, p, ampersand, n, d, hconst, fun hc => ?_, hampersand, hequals⟩, hts⟩
  refine hnone hc p.word ?_
  rw [hts, hc]
  rfl

/-- Reads one piece of a parameter list as a text of its own. -/
def ofPieceText? (tags : Doc.Tags) (p : List Char) : Option Param :=
  (ofPiece? (tokens p)).map (document tags)

/-- A piece is read exactly if its tokens are a phrase. -/
theorem ofPieceText?_eq_some_iff {tags : Doc.Tags} {p : List Char} {q : Param} :
    ofPieceText? tags p = some q ↔ ∃ f : ParamPhrase, tokens p = f.tokens ∧ q = f.param tags := by
  rw [ofPieceText?]
  constructor
  · intro h
    obtain ⟨q', hq', -⟩ := Option.map_eq_some_iff.1 h
    obtain ⟨f, hf⟩ := exists_of_ofPiece? hq'
    rw [hf, f.ofPiece?_eq] at h
    exact ⟨f, hf, (Option.some.inj h).symm⟩
  · rintro ⟨f, hf, rfl⟩
    rw [hf, f.ofPiece?_eq]

/-! ## Parameter lists -/

/-- What stands before the first token of a piece does not matter. -/
theorem ofPiece?_modifyHead {f : Token → Token} (hf : KeepsText f) (ts : List Token) :
    ofPiece? (ts.modifyHead f) = ofPiece? ts := by
  cases ts with
  | nil => rfl
  | cons t ts =>
    have hword : (f t).isWord "const" = t.isWord "const" := by
      rw [Token.isWord, Token.isWord, (hf t).1, (hf t).2]
    have htype : type? (f t :: ts) = type? (t :: ts) := by
      simp only [type?, Token.ident?, Token.span, (hf t).1, (hf t).2]
    rw [List.modifyHead_cons, ofPiece?, ofPiece?, dropWord, dropWord, hword]
    split
    · rfl
    · rw [htype]

/-- The parameters of a list are read from its pieces, each lexed on its own. -/
theorem ofText_eq (tags : Doc.Tags) (raw : List Char) :
    ofText tags raw = (pieceTexts raw).filterMap (ofPieceText? tags) := by
  have hpiece : ∀ x ∈ pieces (tokens raw),
      ofPieceText? tags (Token.span x) = (ofPiece? x).map (document tags) := by
    intro x hx
    obtain ⟨hne, -, lead, rest, hts⟩ := of_mem_pieces hx
    have htokens : tokens (Token.span x) = x.modifyHead alone :=
      congrArg Lexed.tokens (lex_span hts hne)
    rw [ofPieceText?, htokens, ofPiece?_modifyHead keepsText_alone]
  rw [ofText, ofTokens, List.map_filterMap, pieceTexts, List.filterMap_map]
  exact (List.filterMap_congr hpiece).symm

/-- The parameters `out` are those of the texts among `ps` whose tokens are phrases, in
    their order. -/
inductive Kept (tags : Doc.Tags) : List (List Char) → List Param → Prop where
  | nil : Kept tags [] []
  | keep {p : List Char} {ps : List (List Char)} {out : List Param} (f : ParamPhrase)
      (hf : tokens p = f.tokens) (h : Kept tags ps out) :
      Kept tags (p :: ps) (f.param tags :: out)
  | drop {p : List Char} {ps : List (List Char)} {out : List Param}
      (hp : ∀ f : ParamPhrase, tokens p ≠ f.tokens) (h : Kept tags ps out) :
      Kept tags (p :: ps) out

theorem filterMap_eq_iff_kept {tags : Doc.Tags} {ps : List (List Char)} {out : List Param} :
    ps.filterMap (ofPieceText? tags) = out ↔ Kept tags ps out := by
  constructor
  · rintro rfl
    induction ps with
    | nil => exact .nil
    | cons p ps ih =>
      cases hp : ofPieceText? tags p with
      | some q =>
        obtain ⟨f, hf, rfl⟩ := ofPieceText?_eq_some_iff.1 hp
        rw [List.filterMap_cons_some hp]
        exact .keep f hf ih
      | none =>
        rw [List.filterMap_cons_none hp]
        refine .drop (fun f hf => ?_) ih
        rw [ofPieceText?_eq_some_iff.2 ⟨f, hf, rfl⟩] at hp
        cases hp
  · intro h
    induction h with
    | nil => rfl
    | keep f hf _ ih =>
      rw [List.filterMap_cons_some (ofPieceText?_eq_some_iff.2 ⟨f, hf, rfl⟩), ih]
    | @drop p ps out hp _ ih =>
      have hnone : ofPieceText? tags p = none := by
        refine Option.eq_none_iff_forall_ne_some.2 fun q hq => ?_
        obtain ⟨f, hf, -⟩ := ofPieceText?_eq_some_iff.1 hq
        exact hp f hf
      rw [List.filterMap_cons_none hnone, ih]

/-- **Well-formed pieces.** The parameters of a list are those that its pieces declare, one
    for each piece whose tokens are a parameter phrase and none for any other piece, in the
    order of the pieces. -/
theorem ofText_eq_iff {tags : Doc.Tags} {raw : List Char} {out : List Param} :
    ofText tags raw = out ↔ Kept tags (pieceTexts raw) out := by
  rw [ofText_eq, filterMap_eq_iff_kept]

/-- A bracket that closes nothing, a variadic piece, a modifier without a type and a
    bracket that stays open declare nothing. -/
example : ofText {} "int a], any ..., const b, const char [] &c[2] = d, int e[".toList
    = [{ name := "c", type := "char[]", default := some "d" }] := by
  decide +kernel

end PawnApi.Param
