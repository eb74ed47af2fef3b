/-
  PawnApi.Proofs.Phrases

  Declarations as phrases of tokens.

  A phrase is a declaration cut into its parts: `FunctionPhrase`, `MethodmapPhrase` and
  `TypedefPhrase` hold the tokens of each part together with the proof that they have the
  form of that part, so that every phrase is well formed. A reader succeeds at a token list
  exactly if a phrase starts there, and returns the declaration that the phrase makes
  (`functionAt?_eq_some_iff`, `methodmapAt?_eq_some_iff`, `typedefAt?_eq_some_iff`).
-/
import PawnApi.Proofs.Frames

namespace PawnApi.Source

/-! ## Groups -/

theorem level?_of_closeGroup? {opn cls : Char} {d : Nat} {ts : List Token} {g : Group}
    (h : closeGroup? opn cls d ts = some g) :
    level? opn cls d g.inside = some 0 ∧ g.closer.isPunct cls = true := by
  induction ts generalizing d g with
  | nil => simp [closeGroup?] at h
  | cons t ts ih =>
    rw [closeGroup?] at h
    split at h
    · obtain ⟨g', hg', rfl⟩ := Option.map_eq_some_iff.1 h
      rw [Group.inside_push, level?, if_pos ‹_›]
      exact ih hg'
    split at h
    · split at h
      · rename_i hd
        obtain rfl := Option.some.inj h
        subst hd
        exact ⟨rfl, ‹_›⟩
      · obtain ⟨g', hg', rfl⟩ := Option.map_eq_some_iff.1 h
        rw [Group.inside_push, level?, if_neg ‹_›, if_pos ‹_›, if_neg ‹_›]
        exact ih hg'
    · obtain ⟨g', hg', rfl⟩ := Option.map_eq_some_iff.1 h
      rw [Group.inside_push, level?, if_neg ‹_›, if_neg ‹_›]
      exact ih hg'

/-- A pair of brackets with balanced tokens between them. -/
structure Bracketed (opn cls : Char) where
  opener : Token
  inside : List Token
  closer : Token
  isPunct_opener : opener.isPunct opn = true
  balanced : Balanced opn cls inside
  isPunct_closer : closer.isPunct cls = true

namespace Bracketed

variable {opn cls : Char}

def tokens (b : Bracketed opn cls) : List Token :=
  b.opener :: (b.inside ++ [b.closer])

/-- The text between the brackets. -/
def text (b : Bracketed opn cls) : List Char :=
  Token.render b.inside ++ b.closer.gap

/-- The brackets and what follows them, as a reader of groups sees them. -/
def group (b : Bracketed opn cls) (rest : List Token) : Group :=
  ⟨b.inside, b.closer, rest⟩

theorem closeGroup?_eq (b : Bracketed opn cls) (hne : cls ≠ opn) (rest : List Token) :
    closeGroup? opn cls 0 (b.inside ++ ([b.closer] ++ rest)) = some (b.group rest) :=
  closeGroup?_of_balanced b.balanced hne b.isPunct_closer rest

end Bracketed

/-- A group is read at the front of a token list exactly if one is there. -/
theorem group?_eq_some_iff {opn cls : Char} (hne : cls ≠ opn) {ts : List Token} {g : Group} :
    group? opn cls ts = some g ↔
      ∃ b : Bracketed opn cls, ts = b.tokens ++ g.rest ∧ g = b.group g.rest := by
  constructor
  · intro h
    cases ts with
    | nil => simp [group?] at h
    | cons t ts =>
      rw [group?] at h
      split at h
      · obtain ⟨hb, hc⟩ := level?_of_closeGroup? h
        refine ⟨⟨t, g.inside, g.closer, ‹_›, hb, hc⟩, ?_, rfl⟩
        rw [← append_of_closeGroup? h]
        simp [Bracketed.tokens]
      · simp at h
  · rintro ⟨b, hts, hg⟩
    rw [hts, Bracketed.tokens, List.cons_append, List.append_assoc, group?,
      if_pos b.isPunct_opener, b.closeGroup?_eq hne, ← hg]

/-- The dimensions at the front of a token list are all the square brackets in a row. -/
theorem exists_of_dimensions? {ts rest : List Token} {gs : List Group}
    (h : dimensions? ts = some (gs, rest)) :
    ∃ bs : List (Bracketed '[' ']'), ts = bs.flatMap Bracketed.tokens ++ rest ∧
      gs.map Group.text = bs.map Bracketed.text := by
  fun_induction dimensions? ts generalizing gs rest with
  | case1 =>
    obtain ⟨rfl, rfl⟩ := Prod.mk.inj (Option.some.inj h)
    exact ⟨[], rfl, rfl⟩
  | case2 => simp at h
  | case3 t ts ht g hg ih =>
    obtain ⟨⟨gs', rest'⟩, hg', hp⟩ := Option.map_eq_some_iff.1 h
    obtain ⟨rfl, rfl⟩ := Prod.mk.inj hp
    obtain ⟨bs, hbs, htext⟩ := ih hg'
    obtain ⟨hb, hc⟩ := level?_of_closeGroup? hg
    refine ⟨⟨t, g.inside, g.closer, ht, hb, hc⟩ :: bs, ?_, ?_⟩
    · rw [← append_of_closeGroup? hg, hbs]
      simp [Bracketed.tokens]
    · rw [List.map_cons, List.map_cons, htext]
      rfl
  | case4 t ts ht =>
    obtain ⟨rfl, rfl⟩ := Prod.mk.inj (Option.some.inj h)
    exact ⟨[], rfl, rfl⟩

theorem exists_dimensions?_eq (bs : List (Bracketed '[' ']')) {rest : List Token}
    (h : ∀ t ∈ rest.head?, t.isPunct '[' = false) :
    ∃ gs, dimensions? (bs.flatMap Bracketed.tokens ++ rest) = some (gs, rest) ∧
      gs.map Group.text = bs.map Bracketed.text := by
  induction bs with
  | nil => exact ⟨[], dimensions?_of_head h, rfl⟩
  | cons b bs ih =>
    obtain ⟨gs, hgs, htext⟩ := ih
    refine ⟨b.group (bs.flatMap Bracketed.tokens ++ rest) :: gs, ?_, ?_⟩
    · have hclose := b.closeGroup?_eq (by decide) (bs.flatMap Bracketed.tokens ++ rest)
      rw [List.flatMap_cons, Bracketed.tokens, List.append_assoc, List.cons_append,
        List.append_assoc, dimensions?, if_pos b.isPunct_opener]
      split
      · rename_i hn
        rw [hclose] at hn
        simp at hn
      · rename_i g hg
        rw [hclose] at hg
        obtain rfl := Option.some.inj hg
        show (dimensions? (bs.flatMap Bracketed.tokens ++ rest)).map _ = _
        rw [hgs]
        rfl
    · rw [List.map_cons, List.map_cons, htext]
      rfl

end PawnApi.Source

namespace PawnApi.Declaration

open PawnApi.Source

/-! ## Names and types -/

theorem ident?_eq_some_iff {ts rest : List Token} {name : String} :
    ident? ts = some (name, rest) ↔
      ∃ t, ts = t :: rest ∧ t.kind = .ident ∧ name = String.ofList t.text := by
  cases ts with
  | nil => simp [ident?]
  | cons t ts =>
    rw [ident?, Token.ident?]
    constructor
    · intro h
      split at h
      · obtain ⟨rfl, rfl⟩ := Prod.mk.inj (Option.some.inj h)
        exact ⟨t, rfl, ‹_›, rfl⟩
      · simp at h
    · rintro ⟨u, hu, hk, rfl⟩
      obtain ⟨rfl, rfl⟩ := List.cons.inj hu
      rw [if_pos hk]
      rfl

/-- A type: an identifier and its dimensions. -/
structure TypePhrase where
  word : Token
  dims : List (Bracketed '[' ']')
  kind_word : word.kind = .ident

namespace TypePhrase

def tokens (p : TypePhrase) : List Token :=
  p.word :: p.dims.flatMap Bracketed.tokens

/-- The type as it is written down, each dimension trimmed inside. -/
def name (p : TypePhrase) : String :=
  String.ofList (p.word.text ++ p.dims.flatMap fun b => '[' :: Text.trim b.text ++ [']'])

/-- Dimensions are written down by their texts alone. -/
theorem flatMap_trim_eq {gs : List Group} {bs : List (Bracketed '[' ']')}
    (h : gs.map Group.text = bs.map Bracketed.text) :
    (gs.flatMap fun g => '[' :: Text.trim g.text ++ [']'])
      = bs.flatMap fun b => '[' :: Text.trim b.text ++ [']'] := by
  have hm := congrArg (List.flatMap fun x => '[' :: Text.trim x ++ [']']) h
  rwa [List.flatMap_map, List.flatMap_map] at hm

theorem exists_of_typeName? {ts rest : List Token} {type : String}
    (h : typeName? ts = some (type, rest)) :
    ∃ p : TypePhrase, ts = p.tokens ++ rest ∧ type = p.name := by
  cases ts with
  | nil => simp [typeName?] at h
  | cons t ts =>
    simp only [typeName?, Option.bind_eq_bind, Option.bind_eq_some_iff, Option.pure_def,
      Option.some.injEq, Prod.mk.injEq] at h
    obtain ⟨w, hw, ⟨gs, rest'⟩, hd, hname, rfl⟩ := h
    obtain ⟨bs, rfl, htext⟩ := exists_of_dimensions? hd
    have hk : t.kind = .ident := by
      rw [Token.ident?] at hw
      split at hw
      · assumption
      · simp at hw
    refine ⟨⟨t, bs, hk⟩, rfl, ?_⟩
    rw [← hname, name, flatMap_trim_eq htext]

theorem typeName?_eq (p : TypePhrase) {rest : List Token}
    (h : ∀ t ∈ rest.head?, t.isPunct '[' = false) :
    typeName? (p.tokens ++ rest) = some (p.name, rest) := by
  obtain ⟨gs, hgs, htext⟩ := exists_dimensions?_eq p.dims h
  rw [tokens, List.cons_append, typeName?, Token.ident?, if_pos p.kind_word, hgs, name,
    ← flatMap_trim_eq htext]
  rfl

/-- A type without a bracket in its name is a single word. -/
theorem isWord_of_name_eq (p : TypePhrase) {w : String} (h : p.name = w)
    (hw : '[' ∉ w.toList) : p.word.isWord w = true := by
  have htext := congrArg String.toList h
  rw [name, String.toList_ofList] at htext
  cases hd : p.dims with
  | nil =>
    rw [hd, List.flatMap_nil, List.append_nil] at htext
    simp [Token.isWord, p.kind_word, htext]
  | cons b bs =>
    rw [← htext, hd] at hw
    simp at hw

end TypePhrase

/-- What is quoted of a token list is what stands before the rest. -/
theorem quote_append_left (ts rest : List Token) :
    quote (ts ++ rest) rest = String.ofList (Text.onOneLine (Token.span ts)) := by
  have hlen : (ts ++ rest).length - rest.length = ts.length := by
    rw [List.length_append]
    omega
  rw [quote, hlen, List.take_left]

/-! ## Functions -/

/-- Whether a token may stand among the keywords of a function. -/
def IsModifier (t : Token) : Prop :=
  (∃ kind : FunctionKind, t.isWord kind.keyword = true) ∨ t.isWord "static" = true

theorem not_isModifier_iff {t : Token} :
    ¬ IsModifier t ↔ kind? t = none ∧ t.isWord "static" = false := by
  rw [IsModifier, not_or, Bool.not_eq_true]
  refine and_congr_left fun _ => ?_
  rw [Option.eq_none_iff_forall_ne_some, not_exists]
  exact forall_congr' fun kind => not_congr kind?_eq_some_iff.symm

/-- The kind of a function whose first keyword is followed by the modifiers `more`: the
    last of its keywords. -/
def lastKind (first : FunctionKind) (more : List Token) : FunctionKind :=
  (more.filterMap kind?).getLastD first

theorem lastKind_cons (first : FunctionKind) (t : Token) (more : List Token) :
    lastKind first (t :: more) = lastKind ((kind? t).getD first) more := by
  unfold lastKind
  cases h : kind? t with
  | none => rw [List.filterMap_cons_none h, Option.getD_none]
  | some kind => rw [List.filterMap_cons_some h, List.getLastD_cons, Option.getD_some]

theorem skipKeywords_cons {t : Token} (h : IsModifier t) (first : FunctionKind)
    (ts : List Token) : skipKeywords first (t :: ts) = skipKeywords ((kind? t).getD first) ts := by
  rw [skipKeywords]
  cases hk : kind? t with
  | some kind => rfl
  | none =>
    -- it is no keyword, so that it has to be the other modifier
    rcases h with ⟨kind, hw⟩ | hs
    · rw [kind?_eq_some_iff.2 hw] at hk
      simp at hk
    · exact if_pos hs

theorem skipKeywords_of_head {rest : List Token} (h : ∀ t ∈ rest.head?, ¬ IsModifier t)
    (first : FunctionKind) : skipKeywords first rest = (first, rest) := by
  cases rest with
  | nil => rfl
  | cons t rest =>
    obtain ⟨hk, hs⟩ := not_isModifier_iff.1 (h t rfl)
    rw [skipKeywords, hk]
    exact if_neg (by simp [hs])

/-- The modifiers in front of anything else are skipped. -/
theorem skipKeywords_append {more rest : List Token} (hm : ∀ t ∈ more, IsModifier t)
    (hr : ∀ t ∈ rest.head?, ¬ IsModifier t) (first : FunctionKind) :
    skipKeywords first (more ++ rest) = (lastKind first more, rest) := by
  induction more generalizing first with
  | nil => exact skipKeywords_of_head hr first
  | cons t more ih =>
    rw [List.cons_append, skipKeywords_cons (hm t (by simp)), lastKind_cons]
    exact ih (fun u hu => hm u (by simp [hu])) _

/-- Every token list is modifiers and a rest that starts with something else. -/
theorem exists_modifiers (ts : List Token) :
    ∃ more rest, ts = more ++ rest ∧ (∀ t ∈ more, IsModifier t) ∧
      ∀ t ∈ rest.head?, ¬ IsModifier t := by
  induction ts with
  | nil => exact ⟨[], [], rfl, by simp, by simp⟩
  | cons t ts ih =>
    by_cases h : IsModifier t
    · obtain ⟨more, rest, rfl, hm, hr⟩ := ih
      refine ⟨t :: more, rest, rfl, ?_, hr⟩
      intro u hu
      rcases List.mem_cons.1 hu with rfl | hu
      · exact h
      · exact hm u hu
    · refine ⟨[], t :: ts, rfl, by simp, ?_⟩
      intro u hu
      obtain rfl : t = u := Option.some.inj hu
      exact h

/-- Two tokens that stand together or not at all. -/
def pairTokens : Option (Token × Token) → List Token
  | none => []
  | some m => [m.1, m.2]

@[simp] theorem pairTokens_none : pairTokens none = [] := rfl

@[simp] theorem pairTokens_some (m : Token × Token) : pairTokens (some m) = [m.1, m.2] := rfl

/-- A function-like declaration and the tokens behind it. -/
structure FunctionPhrase where
  head : Token
  first : FunctionKind
  more : List Token
  /-- The legacy marker and its colon. -/
  marker : Option (Token × Token)
  type : TypePhrase
  name : Token
  params : Bracketed '(' ')'
  /-- The semicolon, or the brace that opens the body. -/
  ending : Token
  rest : List Token
  isWord_head : head.isWord first.keyword = true
  isModifier_more : ∀ t ∈ more, IsModifier t
  isWord_marker : ∀ m ∈ marker, m.1.isWord "New" = true ∧ m.2.isPunct ':' = true
  /-- Without the marker, a type that is a modifier would be read as one. -/
  not_isModifier_type : marker = none → ¬ IsModifier type.word
  kind_name : name.kind = .ident
  isPunct_ending : ending.isPunct ';' = true ∨ ending.isPunct '{' = true

namespace FunctionPhrase

/-- The tokens behind the modifiers, through the closing parenthesis. -/
def signature (p : FunctionPhrase) : List Token :=
  pairTokens p.marker ++ (p.type.tokens ++ p.name :: p.params.tokens)

/-- The tokens through the closing parenthesis. -/
def header (p : FunctionPhrase) : List Token :=
  p.head :: (p.more ++ p.signature)

def whole (p : FunctionPhrase) : List Token :=
  p.header ++ p.ending :: p.rest

/-- The tokens that are quoted: a semicolon is, a body is not. -/
def quoted (p : FunctionPhrase) : List Token :=
  if p.ending.isPunct ';' then p.header ++ [p.ending] else p.header

/-- The declaration that the phrase makes. -/
def found (tags : Doc.Tags) (p : FunctionPhrase) : Found where
  name := String.ofList p.name.text
  shape := .function (lastKind p.first p.more) p.type.name (Param.ofTokens tags p.params.inside)
  written := String.ofList (Text.onOneLine (Token.span p.quoted))

/-- The marker is no modifier, so the modifiers end where the signature starts. -/
theorem not_isModifier_head (p : FunctionPhrase) (us : List Token) :
    ∀ t ∈ (p.signature ++ us).head?, ¬ IsModifier t := by
  intro t ht
  cases hm : p.marker with
  | none =>
    rw [signature, hm] at ht
    obtain rfl : p.type.word = t := Option.some.inj ht
    exact p.not_isModifier_type hm
  | some m =>
    rw [signature, hm] at ht
    obtain rfl : m.1 = t := Option.some.inj ht
    have hnew := (p.isWord_marker m hm).1
    refine not_isModifier_iff.2 ⟨kind?_of_isWord hnew, ?_⟩
    have htext := text_of_isWord hnew
    simp [Token.isWord, htext]

theorem skipMarker_signature (p : FunctionPhrase) (us : List Token) :
    skipMarker (p.signature ++ us) = p.type.tokens ++ (p.name :: (p.params.tokens ++ us)) := by
  cases hm : p.marker with
  | none =>
    -- behind the type's word stands a bracket or the name, but no colon
    have hcolon : p.name.isPunct ':' = false := by simp [Token.isPunct, p.kind_name]
    have hsig : p.signature ++ us = p.type.tokens ++ (p.name :: (p.params.tokens ++ us)) := by
      rw [signature, hm]
      simp
    rw [hsig, TypePhrase.tokens]
    cases p.type.dims with
    | nil => simp [skipMarker, hcolon]
    | cons b bs =>
      have hb := Token.isPunct_of_ne b.isPunct_opener (show '[' ≠ ':' by decide)
      simp [skipMarker, Bracketed.tokens, hb]
  | some m =>
    obtain ⟨hnew, hcolon⟩ := p.isWord_marker m hm
    rw [signature, hm]
    simp [skipMarker, hnew, hcolon]

theorem resultAndName?_eq (p : FunctionPhrase) (us : List Token) :
    resultAndName? false (p.type.tokens ++ (p.name :: (p.params.tokens ++ us)))
      = some (p.type.name, String.ofList p.name.text, p.params.tokens ++ us) := by
  have hhead : ∀ t ∈ (p.name :: (p.params.tokens ++ us)).head?, t.isPunct '[' = false := by
    intro t ht
    obtain rfl : p.name = t := Option.some.inj ht
    simp [Token.isPunct, p.kind_name]
  have hname : ident? (p.name :: (p.params.tokens ++ us))
      = some (String.ofList p.name.text, p.params.tokens ++ us) :=
    ident?_eq_some_iff.2 ⟨p.name, rfl, p.kind_name, rfl⟩
  rw [resultAndName?, Bool.false_and, if_neg (by simp), p.type.typeName?_eq hhead]
  simp only [Option.bind_eq_bind, Option.bind_some, hname, Option.pure_def]

/-- The tokens that are not quoted. -/
def unquoted (p : FunctionPhrase) : List Token :=
  if p.ending.isPunct ';' then p.rest else p.ending :: p.rest

theorem quoted_append_unquoted (p : FunctionPhrase) : p.quoted ++ p.unquoted = p.whole := by
  unfold quoted unquoted whole
  split <;> simp

theorem exists_ending?_eq (p : FunctionPhrase) :
    ∃ after, ending? (p.ending :: p.rest) = some (p.unquoted, after) := by
  rw [ending?, unquoted]
  split
  · exact ⟨p.rest, rfl⟩
  · rw [if_pos (p.isPunct_ending.resolve_left ‹_›)]
    split
    · exact ⟨_, rfl⟩
    · exact ⟨_, rfl⟩

theorem functionAt?_whole (tags : Doc.Tags) (p : FunctionPhrase) :
    functionAt? tags p.whole = some (p.found tags) := by
  obtain ⟨after, hending⟩ := p.exists_ending?_eq
  have hwhole : p.whole = p.head :: (p.more ++ (p.signature ++ p.ending :: p.rest)) := by
    simp [whole, header]
  have hgroup : group? '(' ')' (p.params.tokens ++ p.ending :: p.rest)
      = some (p.params.group (p.ending :: p.rest)) :=
    (group?_eq_some_iff (by decide)).2 ⟨p.params, rfl, rfl⟩
  have hquote : quote p.whole p.unquoted
      = String.ofList (Text.onOneLine (Token.span p.quoted)) := by
    rw [← p.quoted_append_unquoted, quote_append_left]
  rw [hwhole] at hquote ⊢
  rw [functionAt?, function?, kind?_eq_some_iff.2 p.isWord_head]
  simp only [Option.bind_eq_bind, Option.bind_some,
    skipKeywords_append p.isModifier_more (p.not_isModifier_head _), p.skipMarker_signature,
    p.resultAndName?_eq, hgroup, Bracketed.group, hending, Option.pure_def, hquote]
  rfl

end FunctionPhrase

theorem exists_of_skipMarker (ts : List Token) :
    ∃ marker : Option (Token × Token),
      ts = pairTokens marker ++ skipMarker ts ∧
        ∀ m ∈ marker, m.1.isWord "New" = true ∧ m.2.isPunct ':' = true := by
  unfold skipMarker
  split
  · rename_i t u ts
    split
    · rename_i h
      rw [Bool.and_eq_true] at h
      refine ⟨some (t, u), rfl, ?_⟩
      rintro m ⟨⟩
      exact h
    · exact ⟨none, rfl, by simp⟩
  · exact ⟨none, rfl, by simp⟩

theorem exists_of_ending? {ts unquoted after : List Token}
    (h : ending? ts = some (unquoted, after)) :
    ∃ t rest, ts = t :: rest ∧ (t.isPunct ';' = true ∨ t.isPunct '{' = true) ∧
      unquoted = if t.isPunct ';' then rest else t :: rest := by
  cases ts with
  | nil => simp [ending?] at h
  | cons t ts =>
    rw [ending?] at h
    refine ⟨t, ts, rfl, ?_⟩
    split at h
    · obtain ⟨rfl, -⟩ := Prod.mk.inj (Option.some.inj h)
      exact ⟨Or.inl ‹_›, (if_pos ‹_›).symm⟩
    split at h
    · refine ⟨Or.inr ‹_›, ?_⟩
      rw [if_neg ‹_›]
      split at h
      · exact (Prod.mk.inj (Option.some.inj h)).1.symm
      · exact (Prod.mk.inj (Option.some.inj h)).1.symm
    · simp at h

/-- A function is read exactly where a function phrase starts. -/
theorem functionAt?_eq_some_iff {tags : Doc.Tags} {ts : List Token} {d : Found} :
    functionAt? tags ts = some d ↔ ∃ p : FunctionPhrase, ts = p.whole ∧ d = p.found tags := by
  constructor
  · intro h
    cases ts with
    | nil => simp [functionAt?, function?] at h
    | cons t us =>
      -- each reader along the way gives its part of the phrase
      have hread := h
      simp only [functionAt?, function?, Option.bind_eq_bind, Option.bind_eq_some_iff,
        Option.pure_def, Option.some.injEq] at hread
      obtain ⟨⟨f, after⟩, ⟨first, hk, ⟨type, name, rest⟩, hr, g, hg, ⟨unquoted, after'⟩, he, -⟩, -⟩
        := hread
      obtain ⟨more, rest₁, rfl, hmore, hrest₁⟩ := exists_modifiers us
      rw [skipKeywords_append hmore hrest₁] at hr
      obtain ⟨marker, hmarker, hnew⟩ := exists_of_skipMarker rest₁
      simp only [resultAndName?, Bool.false_and, Bool.false_eq_true, if_false,
        Option.bind_eq_bind, Option.bind_eq_some_iff, Option.pure_def, Option.some.injEq,
        Prod.mk.injEq] at hr
      obtain ⟨⟨type', rest₂⟩, htype, ⟨name', rest₃⟩, hname, -, -, rfl⟩ := hr
      obtain ⟨type, htokens, -⟩ := TypePhrase.exists_of_typeName? htype
      obtain ⟨n, hn, hident, -⟩ := ident?_eq_some_iff.1 hname
      obtain ⟨params, hparams, -⟩ := (group?_eq_some_iff (by decide)).1 hg
      obtain ⟨e, rest, hrest, hending, -⟩ := exists_of_ending? he
      simp only at htokens hn hparams
      have hplain : marker = none → ¬ IsModifier type.word := by
        rintro rfl
        apply hrest₁
        rw [hmarker, htokens]
        rfl
      let p : FunctionPhrase :=
        ⟨t, first, more, marker, type, n, params, e, rest, kind?_eq_some_iff.1 hk, hmore, hnew,
          hplain, hident, hending⟩
      have hwhole : t :: (more ++ rest₁) = p.whole := by
        rw [hmarker, htokens, hn, hparams, hrest]
        simp [p, FunctionPhrase.whole, FunctionPhrase.header, FunctionPhrase.signature]
      refine ⟨p, hwhole, ?_⟩
      rw [hwhole, p.functionAt?_whole] at h
      exact (Option.some.inj h).symm
  · rintro ⟨p, rfl, rfl⟩
    exact p.functionAt?_whole tags

/-! ## Methodmaps -/

/-- The header of a methodmap and the tokens behind it. -/
structure MethodmapPhrase where
  head : Token
  name : Token
  /-- The less-than sign and the name of the parent. -/
  parent : Option (Token × Token)
  rest : List Token
  isWord_head : head.isWord "methodmap" = true
  kind_name : name.kind = .ident
  isPunct_parent : ∀ m ∈ parent, m.1.isPunct '<' = true ∧ m.2.kind = .ident
  /-- A less-than sign announces a parent. -/
  not_isPunct_rest : parent = none → ∀ t ∈ rest.head?, t.isPunct '<' = false

namespace MethodmapPhrase

def header (p : MethodmapPhrase) : List Token :=
  p.head :: p.name :: pairTokens p.parent

def whole (p : MethodmapPhrase) : List Token :=
  p.header ++ p.rest

def found (p : MethodmapPhrase) : Found where
  name := String.ofList p.name.text
  shape := .methodmap (p.parent.map fun m => String.ofList m.2.text)
    (methods (bodyTokens p.rest)) (properties (bodyTokens p.rest))
  written := String.ofList (Text.onOneLine (Token.span p.header))

theorem parent?_eq (p : MethodmapPhrase) :
    parent? (pairTokens p.parent ++ p.rest)
      = some (p.parent.map fun m => String.ofList m.2.text, p.rest) := by
  cases hp : p.parent with
  | none =>
    have hrest := p.not_isPunct_rest hp
    cases h : p.rest with
    | nil => rfl
    | cons t ts =>
      rw [h] at hrest
      show parent? (t :: ts) = _
      rw [parent?, if_neg (by simp [hrest t rfl])]
      rfl
  | some m =>
    obtain ⟨hless, hident⟩ := p.isPunct_parent m hp
    show parent? (m.1 :: m.2 :: p.rest) = _
    rw [parent?, if_pos hless, ident?_eq_some_iff.2 ⟨m.2, rfl, hident, rfl⟩]
    rfl

theorem methodmapAt?_whole (p : MethodmapPhrase) : methodmapAt? p.whole = some p.found := by
  have hwhole : p.whole
      = p.head :: p.name :: (pairTokens p.parent ++ p.rest) := rfl
  have hname : ident? (p.name :: (pairTokens p.parent ++ p.rest))
      = some (String.ofList p.name.text, pairTokens p.parent ++ p.rest) :=
    ident?_eq_some_iff.2 ⟨p.name, rfl, p.kind_name, rfl⟩
  have hquote := quote_append_left p.header p.rest
  rw [show p.header ++ p.rest = _ from hwhole] at hquote
  rw [hwhole, methodmapAt?, guard_of_eq_true p.isWord_head]
  simp only [Option.bind_eq_bind, Option.bind_some, hname, p.parent?_eq, Option.pure_def, hquote]
  rfl

end MethodmapPhrase

theorem exists_of_parent? {ts rest : List Token} {inherits : Option String}
    (h : parent? ts = some (inherits, rest)) :
    ∃ parent : Option (Token × Token), ts = pairTokens parent ++ rest ∧
      (∀ m ∈ parent, m.1.isPunct '<' = true ∧ m.2.kind = .ident) ∧
      (parent = none → ∀ t ∈ rest.head?, t.isPunct '<' = false) := by
  cases ts with
  | nil =>
    obtain ⟨-, rfl⟩ := Prod.mk.inj (Option.some.inj h)
    exact ⟨none, rfl, by simp, by simp⟩
  | cons t ts =>
    rw [parent?] at h
    split at h
    · obtain ⟨⟨w, rest'⟩, hi, heq⟩ := Option.map_eq_some_iff.1 h
      obtain ⟨-, rfl⟩ := Prod.mk.inj heq
      obtain ⟨u, rfl, hk, -⟩ := ident?_eq_some_iff.1 hi
      refine ⟨some (t, u), rfl, ?_, by simp⟩
      rintro m ⟨⟩
      exact ⟨‹_›, hk⟩
    · obtain ⟨-, rfl⟩ := Prod.mk.inj (Option.some.inj h)
      refine ⟨none, rfl, by simp, ?_⟩
      rintro - u ⟨⟩
      simpa using ‹¬ t.isPunct '<' = true›

/-- A methodmap is read exactly where a methodmap phrase starts. -/
theorem methodmapAt?_eq_some_iff {ts : List Token} {d : Found} :
    methodmapAt? ts = some d ↔ ∃ p : MethodmapPhrase, ts = p.whole ∧ d = p.found := by
  constructor
  · intro h
    cases ts with
    | nil => simp [methodmapAt?] at h
    | cons t us =>
      cases hw : t.isWord "methodmap" with
      | false =>
        rw [methodmapAt?_of_isWord_eq_false hw] at h
        simp at h
      | true =>
        have hread := h
        rw [methodmapAt?, guard_of_eq_true hw] at hread
        simp only [Option.bind_eq_bind, Option.bind_some, Option.bind_eq_some_iff] at hread
        obtain ⟨⟨name, rest⟩, hname, ⟨inherits, rest'⟩, hparent, -⟩ := hread
        obtain ⟨n, rfl, hident, -⟩ := ident?_eq_some_iff.1 hname
        obtain ⟨parent, hrest, hless, hnone⟩ := exists_of_parent? hparent
        let p : MethodmapPhrase := ⟨t, n, parent, rest', hw, hident, hless, hnone⟩
        have hwhole : t :: n :: rest = p.whole := by
          rw [show rest = _ from hrest]
          rfl
        refine ⟨p, hwhole, ?_⟩
        rw [hwhole, p.methodmapAt?_whole] at h
        exact (Option.some.inj h).symm
  · rintro ⟨p, rfl, rfl⟩
    exact p.methodmapAt?_whole

/-! ## Typedefs -/

/-- A typedef and the tokens behind it. -/
structure TypedefPhrase where
  head : Token
  name : Token
  equals : Token
  word : Token
  type : TypePhrase
  params : Bracketed '(' ')'
  semicolon : Token
  rest : List Token
  isWord_head : head.isWord "typedef" = true
  kind_name : name.kind = .ident
  isPunct_equals : equals.isPunct '=' = true
  isWord_word : word.isWord "function" = true
  isPunct_semicolon : semicolon.isPunct ';' = true

namespace TypedefPhrase

def header (p : TypedefPhrase) : List Token :=
  p.head :: p.name :: p.equals :: p.word :: (p.type.tokens ++ (p.params.tokens ++ [p.semicolon]))

def whole (p : TypedefPhrase) : List Token :=
  p.header ++ p.rest

def found (tags : Doc.Tags) (p : TypedefPhrase) : Found where
  name := String.ofList p.name.text
  shape := .typedef p.type.name (Param.ofTokens tags p.params.inside)
  written := String.ofList (Text.onOneLine (Token.span p.header))

theorem whole_eq (p : TypedefPhrase) :
    p.whole = p.head :: p.name :: p.equals :: p.word
      :: (p.type.tokens ++ (p.params.tokens ++ p.semicolon :: p.rest)) := by
  simp [whole, header]

theorem typedefAt?_whole (tags : Doc.Tags) (p : TypedefPhrase) :
    typedefAt? tags p.whole = some (p.found tags) := by
  have hquote := quote_append_left p.header p.rest
  rw [show p.header ++ p.rest = _ from p.whole_eq] at hquote
  have hhead : ∀ t ∈ (p.params.tokens ++ p.semicolon :: p.rest).head?,
      t.isPunct '[' = false := by
    rintro t ⟨⟩
    exact Token.isPunct_of_ne p.params.isPunct_opener (by decide)
  have hname : ∀ us, ident? (p.name :: us) = some (String.ofList p.name.text, us) :=
    fun us => ident?_eq_some_iff.2 ⟨p.name, rfl, p.kind_name, rfl⟩
  have hfollows : ∀ us, functionTypeFollows? (p.equals :: p.word :: us) = some us := by
    intro us
    simp [functionTypeFollows?, p.isPunct_equals, p.isWord_word]
  have hgroup : group? '(' ')' (p.params.tokens ++ p.semicolon :: p.rest)
      = some (p.params.group (p.semicolon :: p.rest)) :=
    (group?_eq_some_iff (by decide)).2 ⟨p.params, rfl, rfl⟩
  have hafter : afterSemicolon? (p.semicolon :: p.rest) = some p.rest :=
    if_pos p.isPunct_semicolon
  rw [p.whole_eq, typedefAt?, guard_of_eq_true p.isWord_head]
  simp only [Option.bind_eq_bind, Option.bind_some, hname, hfollows, p.type.typeName?_eq hhead,
    hgroup, Bracketed.group, hafter, Option.pure_def, hquote]
  rfl

end TypedefPhrase

theorem exists_of_functionTypeFollows? {ts rest : List Token}
    (h : functionTypeFollows? ts = some rest) :
    ∃ t u, ts = t :: u :: rest ∧ t.isPunct '=' = true ∧ u.isWord "function" = true := by
  unfold functionTypeFollows? at h
  split at h
  · rename_i t u ts
    split at h
    · rename_i hc
      rw [Bool.and_eq_true] at hc
      obtain rfl := Option.some.inj h
      exact ⟨t, u, rfl, hc⟩
    · simp at h
  · simp at h

theorem exists_of_afterSemicolon? {ts rest : List Token} (h : afterSemicolon? ts = some rest) :
    ∃ t, ts = t :: rest ∧ t.isPunct ';' = true := by
  cases ts with
  | nil => simp [afterSemicolon?] at h
  | cons t ts =>
    rw [afterSemicolon?] at h
    split at h
    · obtain rfl := Option.some.inj h
      exact ⟨t, rfl, ‹_›⟩
    · simp at h

/-- A typedef is read exactly where a typedef phrase starts. -/
theorem typedefAt?_eq_some_iff {tags : Doc.Tags} {ts : List Token} {d : Found} :
    typedefAt? tags ts = some d ↔ ∃ p : TypedefPhrase, ts = p.whole ∧ d = p.found tags := by
  constructor
  · intro h
    cases ts with
    | nil => simp [typedefAt?] at h
    | cons t us =>
      cases hw : t.isWord "typedef" with
      | false =>
        rw [typedefAt?_of_isWord_eq_false hw] at h
        simp at h
      | true =>
        have hread := h
        rw [typedefAt?, guard_of_eq_true hw] at hread
        simp only [Option.bind_eq_bind, Option.bind_some, Option.bind_eq_some_iff] at hread
        obtain ⟨⟨name, rest⟩, hname, rest₁, hfollows, ⟨type', rest₂⟩, htype, g, hg, after, ha, -⟩
          := hread
        obtain ⟨n, rfl, hident, -⟩ := ident?_eq_some_iff.1 hname
        obtain ⟨e, f, hrest, hequals, hfunction⟩ := exists_of_functionTypeFollows? hfollows
        obtain ⟨type, htokens, -⟩ := TypePhrase.exists_of_typeName? htype
        obtain ⟨params, hparams, -⟩ := (group?_eq_some_iff (by decide)).1 hg
        obtain ⟨semi, hsemi, hpunct⟩ := exists_of_afterSemicolon? ha
        simp only at hrest hparams
        let p : TypedefPhrase :=
          ⟨t, n, e, f, type, params, semi, after, hw, hident, hequals, hfunction, hpunct⟩
        have hwhole : t :: n :: rest = p.whole := by
          rw [p.whole_eq, hrest, htokens, hparams, hsemi]
        refine ⟨p, hwhole, ?_⟩
        rw [hwhole, p.typedefAt?_whole] at h
        exact (Option.some.inj h).symm
  · rintro ⟨p, rfl, rfl⟩
    exact p.typedefAt?_whole tags

end PawnApi.Declaration
