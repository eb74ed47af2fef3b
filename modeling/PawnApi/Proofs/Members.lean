/-
  PawnApi.Proofs.Members

  The members of a methodmap body as phrases of tokens.

  A body is read step by step: at each place stands a member, or a statement that is
  skipped (`members_cons`). A `MemberPhrase` is a method or constructor, a public property,
  or a statement that is none of these, cut into its parts. Each phrase is read in one step
  that ends where the next phrase starts, so a body made of phrases has exactly the members
  of those phrases, in order (`methodmap_members`).
-/
import PawnApi.Proofs.Phrases

namespace PawnApi.Declaration

open PawnApi.Source

/-! ## One step through a body -/

/-- The member at the front of a token list, and where reading goes on behind it. -/
def memberAt? (ts : List Token) : Option (Member × List Token) :=
  match propertyFollows? ts with
  | some rest => (property? rest).map fun p => (.property p.1, dropStatement p.2)
  | none => (function? true ts).map fun f => (.method f.1.toMethod, f.2)

/-- The members of a body: the one at the front, or else those behind the first statement. -/
theorem members_cons (t : Token) (us : List Token) :
    members (t :: us) =
      match memberAt? (t :: us) with
      | some (m, rest) => m :: members rest
      | none => members (dropStatement (t :: us)) := by
  rw [members, memberAt?]
  split
  · rename_i rest hp
    rw [hp]
    split
    · rename_i hq
      simp [hq]
    · rename_i hq
      simp [hq]
  · rename_i hp
    rw [hp]
    split
    · rename_i hf
      simp [hf]
    · rename_i hf
      simp [hf]

theorem members_of_memberAt? {ts rest : List Token} {m : Member}
    (h : memberAt? ts = some (m, rest)) : members ts = m :: members rest := by
  cases ts with
  | nil => simp [memberAt?, propertyFollows?, function?] at h
  | cons t us => rw [members_cons, h]

theorem members_of_memberAt?_eq_none {ts : List Token} (h : memberAt? ts = none) :
    members ts = members (dropStatement ts) := by
  cases ts with
  | nil => rfl
  | cons t us => rw [members_cons, h]

theorem exists_function?_of_memberAt? {ts rest : List Token} {m : Method}
    (h : memberAt? ts = some (.method m, rest)) :
    ∃ f, function? true ts = some (f, rest) ∧ f.toMethod = m := by
  unfold memberAt? at h
  split at h
  · obtain ⟨p, -, heq⟩ := Option.map_eq_some_iff.1 h
    cases heq
  · obtain ⟨p, hp, heq⟩ := Option.map_eq_some_iff.1 h
    cases heq
    exact ⟨p.1, hp, rfl⟩

theorem memberAt?_of_function? {ts after : List Token} {f : Function}
    (hp : propertyFollows? ts = none) (hf : function? true ts = some (f, after)) :
    memberAt? ts = some (.method f.toMethod, after) := by
  rw [memberAt?, hp]
  simp [hf]

theorem memberAt?_of_property? {ts rest rest' : List Token} {p : Property}
    (hp : propertyFollows? ts = some rest) (hq : property? rest = some (p, rest')) :
    memberAt? ts = some (.property p, dropStatement rest') := by
  rw [memberAt?, hp]
  simp [hq]

/-- No member starts with anything else than a keyword. -/
theorem memberAt?_of_kind?_eq_none {t : Token} (h : kind? t = none) (us : List Token) :
    memberAt? (t :: us) = none := by
  have hpublic : t.isWord "public" = false := by
    cases hw : t.isWord "public" with
    | false => rfl
    | true =>
      rw [kind?_of_isWord hw] at h
      simp [FunctionKind.ofKeyword?] at h
  have hp : propertyFollows? (t :: us) = none := by
    cases us with
    | nil => rfl
    | cons u us => simp [propertyFollows?, hpublic]
  rw [memberAt?, hp, function?, h]
  rfl

/-- A stray semicolon is a statement of its own. -/
theorem members_dropSemicolon (ts : List Token) : members (dropSemicolon ts) = members ts := by
  cases ts with
  | nil => rfl
  | cons t ts =>
    rw [dropSemicolon]
    split
    · rename_i h
      rw [members_of_memberAt?_eq_none (memberAt?_of_kind?_eq_none (kind?_of_isPunct h) ts),
        dropStatement, if_neg (by simp [Token.isPunct_of_ne h]), if_pos h]
    · rfl

/-! ## How members and statements end -/

/-- What ends a method: a semicolon, or its body. -/
inductive CallEnd where
  | semicolon (t : Token) (isPunct : t.isPunct ';' = true)
  | body (b : Bracketed '{' '}')

namespace CallEnd

def tokens : CallEnd → List Token
  | semicolon t _ => [t]
  | body b => b.tokens

/-- The tokens that are quoted with the header. -/
def quoted : CallEnd → List Token
  | semicolon t _ => [t]
  | body _ => []

/-- The tokens that are not. -/
def unquoted : CallEnd → List Token
  | semicolon _ _ => []
  | body b => b.tokens

theorem quoted_append_unquoted (e : CallEnd) : e.quoted ++ e.unquoted = e.tokens := by
  cases e <;> rfl

theorem ending?_tokens (e : CallEnd) (rest : List Token) :
    ending? (e.tokens ++ rest) = some (e.unquoted ++ rest, rest) := by
  cases e with
  | semicolon t ht =>
    show ending? (t :: rest) = _
    rw [ending?, if_pos ht]
    rfl
  | body b =>
    have hs := Token.isPunct_of_ne b.isPunct_opener (show '{' ≠ ';' by decide)
    have hclose := b.closeGroup?_eq (by decide) rest
    show ending? (b.opener :: ((b.inside ++ [b.closer]) ++ rest)) = _
    rw [List.append_assoc, ending?, if_neg (by simp [hs]), if_pos b.isPunct_opener, hclose]
    simp [unquoted, Bracketed.tokens, Bracketed.group]

end CallEnd

/-- What ends a statement: a semicolon, or a block and the semicolon that may follow it. -/
inductive StatementEnd where
  | semicolon (t : Token) (isPunct : t.isPunct ';' = true)
  | block (b : Bracketed '{' '}')
  | blockSemicolon (b : Bracketed '{' '}') (t : Token) (isPunct : t.isPunct ';' = true)

namespace StatementEnd

def tokens : StatementEnd → List Token
  | semicolon t _ => [t]
  | block b => b.tokens
  | blockSemicolon b t _ => b.tokens ++ [t]

end StatementEnd

theorem dropStatement_block (b : Bracketed '{' '}') (rest : List Token) :
    dropStatement (b.tokens ++ rest) = dropSemicolon rest := by
  show dropStatement (b.opener :: ((b.inside ++ [b.closer]) ++ rest)) = _
  rw [List.append_assoc, dropStatement, if_pos b.isPunct_opener, b.closeGroup?_eq (by decide)]
  rfl

theorem dropStatement_append {lead : List Token}
    (h : ∀ t ∈ lead, t.isPunct ';' = false ∧ t.isPunct '{' = false) (rest : List Token) :
    dropStatement (lead ++ rest) = dropStatement rest := by
  induction lead with
  | nil => rfl
  | cons t lead ih =>
    obtain ⟨hs, hb⟩ := h t (by simp)
    rw [List.cons_append, dropStatement, if_neg (by simp [hb]), if_neg (by simp [hs])]
    exact ih fun u hu => h u (by simp [hu])

/-- Behind a statement, members are read as if nothing stood before. -/
theorem members_dropStatement (e : StatementEnd) (rest : List Token) :
    members (dropStatement (e.tokens ++ rest)) = members rest := by
  cases e with
  | semicolon t ht =>
    show members (dropStatement (t :: rest)) = _
    rw [dropStatement, if_neg (by simp [Token.isPunct_of_ne ht]), if_pos ht]
  | block b =>
    show members (dropStatement (b.tokens ++ rest)) = _
    rw [dropStatement_block, members_dropSemicolon]
  | blockSemicolon b t ht =>
    show members (dropStatement ((b.tokens ++ [t]) ++ rest)) = _
    rw [List.append_assoc, dropStatement_block]
    simp [dropSemicolon, ht]

/-! ## Methods and constructors -/

/-- Whether a token is a word that is not read as a type or name behind the keywords. -/
def IsReserved (t : Token) : Prop :=
  IsModifier t ∨ t.isWord "property" = true

theorem not_isReserved_iff {t : Token} :
    ¬ IsReserved t ↔
      (kind? t = none ∧ t.isWord "static" = false) ∧ t.isWord "property" = false := by
  rw [IsReserved, not_or, not_isModifier_iff, Bool.not_eq_true]

/-- A method, or a constructor if it has no type. -/
structure CallPhrase where
  head : Token
  first : FunctionKind
  more : List Token
  type : Option TypePhrase
  name : Token
  params : Bracketed '(' ')'
  ending : CallEnd
  isWord_head : head.isWord first.keyword = true
  isModifier_more : ∀ t ∈ more, IsModifier t
  kind_name : name.kind = .ident
  not_isReserved_type : ∀ p ∈ type, ¬ IsReserved p.word
  /-- Behind a type, any name will do. -/
  not_isReserved_name : type = none → ¬ IsReserved name

namespace CallPhrase

/-- The tokens of the type. -/
def typeTokens (p : CallPhrase) : List Token :=
  (p.type.map TypePhrase.tokens).getD []

/-- The tokens through the closing parenthesis. -/
def header (p : CallPhrase) : List Token :=
  p.head :: (p.more ++ (p.typeTokens ++ p.name :: p.params.tokens))

def tokens (p : CallPhrase) : List Token :=
  p.header ++ p.ending.tokens

/-- The type that is returned; a constructor returns its own. -/
def returnType (p : CallPhrase) : String :=
  (p.type.map TypePhrase.name).getD (String.ofList p.name.text)

/-- The method that is declared. Its parameters have no documentation. -/
def method (p : CallPhrase) : Method where
  name := String.ofList p.name.text
  kind := lastKind p.first p.more
  returnType := p.returnType
  params := Param.ofTokens {} p.params.inside
  fullDeclaration := String.ofList (Text.onOneLine (Token.span (p.header ++ p.ending.quoted)))

/-- What follows the keywords. -/
def signature (p : CallPhrase) (us : List Token) : List Token :=
  p.typeTokens ++ p.name :: (p.params.tokens ++ us)

theorem exists_signature (p : CallPhrase) (us : List Token) :
    ∃ t ts, p.signature us = t :: ts ∧ ¬ IsReserved t := by
  unfold signature typeTokens
  cases h : p.type with
  | none => exact ⟨p.name, _, rfl, p.not_isReserved_name h⟩
  | some q => exact ⟨q.word, _, rfl, p.not_isReserved_type q h⟩

/-- The word behind the first one of the signature is no colon, so there is no marker. -/
theorem skipMarker_signature (p : CallPhrase) (us : List Token) :
    skipMarker (p.signature us) = p.signature us := by
  have hname : p.name.isPunct ':' = false := by simp [Token.isPunct, p.kind_name]
  unfold signature typeTokens
  cases p.type with
  | none =>
    have hopen := Token.isPunct_of_ne p.params.isPunct_opener (show '(' ≠ ':' by decide)
    simp [skipMarker, Bracketed.tokens, hopen]
  | some q =>
    rw [Option.map_some, Option.getD_some, TypePhrase.tokens]
    cases q.dims with
    | nil => simp [skipMarker, hname]
    | cons b bs =>
      have hopen := Token.isPunct_of_ne b.isPunct_opener (show '[' ≠ ':' by decide)
      simp [skipMarker, Bracketed.tokens, hopen]

/-- A parenthesis follows the first word of a signature exactly if there is no type. -/
theorem callFollows_signature (p : CallPhrase) (us : List Token) :
    callFollows (p.signature us) = p.type.isNone := by
  have hname : p.name.isPunct '(' = false := by simp [Token.isPunct, p.kind_name]
  unfold signature typeTokens
  cases p.type with
  | none => simp [callFollows, Bracketed.tokens, p.params.isPunct_opener]
  | some q =>
    rw [Option.map_some, Option.getD_some, TypePhrase.tokens]
    cases q.dims with
    | nil => simp [callFollows, hname]
    | cons b bs =>
      have hopen := Token.isPunct_of_ne b.isPunct_opener (show '[' ≠ '(' by decide)
      simp [callFollows, Bracketed.tokens, hopen]

theorem resultAndName?_signature (p : CallPhrase) (us : List Token) :
    resultAndName? true (p.signature us)
      = some (p.returnType, String.ofList p.name.text, p.params.tokens ++ us) := by
  have hname : ident? (p.name :: (p.params.tokens ++ us))
      = some (String.ofList p.name.text, p.params.tokens ++ us) :=
    ident?_eq_some_iff.2 ⟨p.name, rfl, p.kind_name, rfl⟩
  rw [resultAndName?, p.callFollows_signature, signature, typeTokens, returnType]
  cases p.type with
  | none =>
    simp only [Option.isNone_none, Bool.and_true, if_true, Option.map_none, Option.getD_none,
      List.nil_append, hname, Option.bind_eq_bind, Option.bind_some, Option.pure_def]
  | some q =>
    have hhead : ∀ t ∈ (p.name :: (p.params.tokens ++ us)).head?, t.isPunct '[' = false := by
      intro t ht
      obtain rfl : p.name = t := Option.some.inj ht
      simp [Token.isPunct, p.kind_name]
    simp only [Option.isNone_some, Bool.and_false, Bool.false_eq_true, if_false, Option.map_some,
      Option.getD_some, q.typeName?_eq hhead, hname, Option.bind_eq_bind, Option.bind_some,
      Option.pure_def]

theorem callHead?_header (p : CallPhrase) (us : List Token) :
    callHead? true (p.header ++ us)
      = some ⟨lastKind p.first p.more, p.returnType, String.ofList p.name.text, p.params.inside,
          us⟩ := by
  have hheader : p.header ++ us = p.head :: (p.more ++ p.signature us) := by
    simp [header, signature]
  have hrest : ∀ t ∈ (p.signature us).head?, ¬ IsModifier t := by
    obtain ⟨u, ts, hts, hu⟩ := p.exists_signature us
    rw [hts]
    rintro t ⟨⟩ hm
    exact hu (Or.inl hm)
  have hgroup : group? '(' ')' (p.params.tokens ++ us) = some (p.params.group us) :=
    (group?_eq_some_iff (by decide)).2 ⟨p.params, rfl, rfl⟩
  rw [hheader, callHead?, kind?_eq_some_iff.2 p.isWord_head]
  simp only [Option.bind_eq_bind, Option.bind_some, skipKeywords_append p.isModifier_more hrest,
    p.skipMarker_signature, p.resultAndName?_signature, hgroup, Bracketed.group, Option.pure_def]

/-- A method is not taken for a property: what follows its first keyword is another keyword,
    or a word that is not reserved. -/
theorem propertyFollows?_tokens (p : CallPhrase) (rest : List Token) :
    propertyFollows? (p.tokens ++ rest) = none := by
  -- only the second token matters, and it is a keyword or starts the signature
  have hsecond : ∃ u us, p.tokens ++ rest = p.head :: u :: us ∧ u.isWord "property" = false := by
    have htokens : p.tokens ++ rest
        = p.head :: (p.more ++ p.signature (p.ending.tokens ++ rest)) := by
      simp [tokens, header, signature]
    rw [htokens]
    cases hm : p.more with
    | nil =>
      obtain ⟨u, us, hus, hu⟩ := p.exists_signature (p.ending.tokens ++ rest)
      exact ⟨u, us, by rw [hus, List.nil_append], (not_isReserved_iff.1 hu).2⟩
    | cons u us =>
      refine ⟨u, _, rfl, ?_⟩
      have hword : ∀ {w : String}, u.isWord w = true → w.toList ≠ "property".toList →
          u.isWord "property" = false := by
        intro w hw hne
        rw [Token.isWord, text_of_isWord hw, decide_eq_false hne, Bool.and_false]
      rcases p.isModifier_more u (by simp [hm]) with ⟨k, hk⟩ | hs
      · exact hword hk (by cases k <;> decide)
      · exact hword hs (by decide)
  obtain ⟨u, us, h, hu⟩ := hsecond
  simp [h, propertyFollows?, hu]

/-- A method is read in one step. -/
theorem memberAt?_tokens (p : CallPhrase) (rest : List Token) :
    memberAt? (p.tokens ++ rest) = some (.method p.method, rest) := by
  have hhead := p.callHead?_header (p.ending.tokens ++ rest)
  rw [← List.append_assoc, ← tokens] at hhead
  have hquote : quote (p.tokens ++ rest) (p.ending.unquoted ++ rest)
      = String.ofList (Text.onOneLine (Token.span (p.header ++ p.ending.quoted))) := by
    rw [tokens, ← p.ending.quoted_append_unquoted, ← List.append_assoc, List.append_assoc,
      quote_append_left]
  have hf : function? true (p.tokens ++ rest)
      = some (⟨lastKind p.first p.more, p.returnType, String.ofList p.name.text,
          p.params.inside, quote (p.tokens ++ rest) (p.ending.unquoted ++ rest)⟩, rest) := by
    rw [function?_eq_bind, hhead, Option.bind_some, p.ending.ending?_tokens]
    rfl
  rw [memberAt?_of_function? (p.propertyFollows?_tokens rest) hf, Function.toMethod, hquote]
  rfl

end CallPhrase

/-! ## Properties -/

/-- A public property. -/
structure PropertyPhrase where
  head : Token
  word : Token
  type : TypePhrase
  name : Token
  ending : StatementEnd
  isWord_head : head.isWord "public" = true
  isWord_word : word.isWord "property" = true
  kind_name : name.kind = .ident

namespace PropertyPhrase

def tokens (p : PropertyPhrase) : List Token :=
  p.head :: p.word :: (p.type.tokens ++ p.name :: p.ending.tokens)

/-- The property that is declared. -/
def property (p : PropertyPhrase) : Property :=
  ⟨String.ofList p.name.text, p.type.name⟩

theorem memberAt?_tokens (p : PropertyPhrase) (rest : List Token) :
    memberAt? (p.tokens ++ rest)
      = some (.property p.property, dropStatement (p.ending.tokens ++ rest)) := by
  have hfollows : propertyFollows? (p.tokens ++ rest)
      = some (p.type.tokens ++ p.name :: (p.ending.tokens ++ rest)) := by
    simp [tokens, propertyFollows?, p.isWord_head, p.isWord_word]
  have hhead : ∀ t ∈ (p.name :: (p.ending.tokens ++ rest)).head?, t.isPunct '[' = false := by
    intro t ht
    obtain rfl : p.name = t := Option.some.inj ht
    simp [Token.isPunct, p.kind_name]
  have hname : ident? (p.name :: (p.ending.tokens ++ rest))
      = some (String.ofList p.name.text, p.ending.tokens ++ rest) :=
    ident?_eq_some_iff.2 ⟨p.name, rfl, p.kind_name, rfl⟩
  refine memberAt?_of_property? hfollows ?_
  rw [property?, p.type.typeName?_eq hhead]
  simp only [Option.bind_eq_bind, Option.bind_some, hname, Option.pure_def, property]

end PropertyPhrase

/-! ## Bodies -/

/-- A statement that declares no member: it starts with no keyword, and ends at its first
    semicolon or block. -/
structure ForeignPhrase where
  lead : List Token
  ending : StatementEnd
  not_isWord_head : ∀ t ∈ lead.head?, ∀ k : FunctionKind, t.isWord k.keyword = false
  plain : ∀ t ∈ lead, t.isPunct ';' = false ∧ t.isPunct '{' = false

namespace ForeignPhrase

def tokens (p : ForeignPhrase) : List Token :=
  p.lead ++ p.ending.tokens

/-- A statement without a lead starts with the mark that ends it. -/
theorem exists_tokens (p : ForeignPhrase) : ∃ t us, p.tokens = t :: us ∧ kind? t = none := by
  unfold tokens
  cases hl : p.lead with
  | nil =>
    cases p.ending with
    | semicolon t ht => exact ⟨t, [], rfl, kind?_of_isPunct ht⟩
    | block b => exact ⟨b.opener, _, rfl, kind?_of_isPunct b.isPunct_opener⟩
    | blockSemicolon b t ht => exact ⟨b.opener, _, rfl, kind?_of_isPunct b.isPunct_opener⟩
  | cons t lead =>
    refine ⟨t, _, rfl, Option.eq_none_iff_forall_ne_some.2 fun k hk => ?_⟩
    have hword := p.not_isWord_head t (by simp [hl]) k
    rw [kind?_eq_some_iff.1 hk] at hword
    simp at hword

theorem members_tokens (p : ForeignPhrase) (rest : List Token) :
    members (p.tokens ++ rest) = members rest := by
  obtain ⟨t, us, hts, hk⟩ := p.exists_tokens
  have hnone : memberAt? (p.tokens ++ rest) = none := by
    rw [hts, List.cons_append, memberAt?_of_kind?_eq_none hk]
  rw [members_of_memberAt?_eq_none hnone, tokens, List.append_assoc,
    dropStatement_append p.plain, members_dropStatement]

end ForeignPhrase

/-- What a methodmap body is made of. -/
inductive MemberPhrase where
  | call (p : CallPhrase)
  | property (p : PropertyPhrase)
  | foreign (p : ForeignPhrase)

namespace MemberPhrase

def tokens : MemberPhrase → List Token
  | call p => p.tokens
  | property p => p.tokens
  | foreign p => p.tokens

def member? : MemberPhrase → Option Member
  | call p => some (.method p.method)
  | property p => some (.property p.property)
  | foreign _ => none

/-- The method or constructor that is declared. -/
def method? : MemberPhrase → Option Method
  | call p => some p.method
  | _ => none

/-- The property that is declared. -/
def property? : MemberPhrase → Option Property
  | property p => some p.property
  | _ => none

/-- One phrase gives its member, if it has one, and then come the members of the rest. -/
theorem members_tokens (m : MemberPhrase) (rest : List Token) :
    members (m.tokens ++ rest) = m.member?.toList ++ members rest := by
  cases m with
  | call p => exact members_of_memberAt? (p.memberAt?_tokens rest)
  | property p =>
    show members (p.tokens ++ rest) = .property p.property :: members rest
    rw [members_of_memberAt? (p.memberAt?_tokens rest), members_dropStatement]
  | foreign p => exact p.members_tokens rest

theorem members_flatMap (ms : List MemberPhrase) :
    members (ms.flatMap tokens) = ms.filterMap member? := by
  induction ms with
  | nil => rw [List.flatMap_nil, members, List.filterMap_nil]
  | cons m ms ih =>
    rw [List.flatMap_cons, members_tokens, ih]
    cases h : m.member? <;> simp [h]

end MemberPhrase

/-- Without tags, no parameter has a description. -/
theorem description_of_mem_ofTokens {ts : List Token} {p : Param}
    (h : p ∈ Param.ofTokens {} ts) : p.description = "" := by
  obtain ⟨q, -, rfl⟩ := List.mem_map.1 h
  rfl

/-- **Members.** A body that is a sequence of methods, constructors, public properties and
    other statements, with any gaps between their tokens, has exactly the methods and the
    properties of that sequence, in order, and no parameter is described. -/
theorem methodmap_members {body : List Char} {ms : List MemberPhrase}
    (h : tokens body = ms.flatMap MemberPhrase.tokens) :
    methods (tokens body) = ms.filterMap MemberPhrase.method? ∧
      properties (tokens body) = ms.filterMap MemberPhrase.property? ∧
      ∀ m ∈ methods (tokens body), ∀ p ∈ m.params, p.description = "" := by
  have hmethods : methods (tokens body) = ms.filterMap MemberPhrase.method? := by
    rw [methods, h, MemberPhrase.members_flatMap, List.filterMap_filterMap]
    congr 1
    funext m
    cases m <;> rfl
  have hproperties : properties (tokens body) = ms.filterMap MemberPhrase.property? := by
    rw [properties, h, MemberPhrase.members_flatMap, List.filterMap_filterMap]
    congr 1
    funext m
    cases m <;> rfl
  refine ⟨hmethods, hproperties, fun m hm p hp => ?_⟩
  rw [hmethods] at hm
  obtain ⟨phrase, -, hphrase⟩ := List.mem_filterMap.1 hm
  cases phrase with
  | call c =>
    obtain rfl := Option.some.inj hphrase
    exact description_of_mem_ofTokens hp
  | property c => simp [MemberPhrase.method?] at hphrase
  | foreign c => simp [MemberPhrase.method?] at hphrase

/-! ## A body with all of them -/

section Sample

/-- A word behind a gap. -/
def sampleWord (gap word : String) : Token :=
  ⟨gap.toList, .ident, word.toList, gap.toList.contains '\n'⟩

/-- A mark behind a gap. -/
def sampleMark (gap : String) (c : Char) : Token :=
  ⟨gap.toList, .punct, [c], false⟩

/-- A constructor with a body, a method, a public property, and one that is not public. -/
def sampleBody : List Char :=
  ("public Map(int a) \x7b int b; \x7d\npublic static native int[] Get();\n" ++
    "/* int c; */ public property Handle H \x7b int d; \x7d;\nproperty int E \x7b \x7d").toList

/-- A block with one declaration in it. -/
def sampleBlock (name : String) : Bracketed '{' '}' where
  opener := sampleMark " " '{'
  inside := [sampleWord " " "int", sampleWord " " name, sampleMark "" ';']
  closer := sampleMark " " '}'
  isPunct_opener := by decide
  balanced := rfl
  isPunct_closer := by decide

def samplePhrases : List MemberPhrase :=
  [.call
    { head := { sampleWord "" "public" with opensLine := true }
      first := .published
      more := []
      type := none
      name := sampleWord " " "Map"
      params := ⟨sampleMark "" '(', [sampleWord "" "int", sampleWord " " "a"], sampleMark "" ')',
        by decide, by decide, by decide⟩
      ending := .body (sampleBlock "b")
      isWord_head := by decide
      isModifier_more := by simp
      kind_name := rfl
      not_isReserved_type := by simp
      not_isReserved_name := fun _ => not_isReserved_iff.2 (by decide) },
   .call
    { head := sampleWord "\n" "public"
      first := .published
      more := [sampleWord " " "static", sampleWord " " "native"]
      type := some ⟨sampleWord " " "int",
        [⟨sampleMark "" '[', [], sampleMark "" ']', by decide, by decide, by decide⟩], rfl⟩
      name := sampleWord " " "Get"
      params := ⟨sampleMark "" '(', [], sampleMark "" ')', by decide, by decide, by decide⟩
      ending := .semicolon (sampleMark "" ';') (by decide)
      isWord_head := by decide
      isModifier_more := by
        simp only [List.mem_cons, List.not_mem_nil, or_false, forall_eq_or_imp, forall_eq]
        exact ⟨Or.inr (by decide), Or.inl ⟨.native, by decide⟩⟩
      kind_name := rfl
      not_isReserved_type := by
        rintro _ ⟨⟩
        exact not_isReserved_iff.2 (by decide)
      not_isReserved_name := by simp },
   .property
    { head := sampleWord "\n/* int c; */ " "public"
      word := sampleWord " " "property"
      type := ⟨sampleWord " " "Handle", [], rfl⟩
      name := sampleWord " " "H"
      ending := .blockSemicolon (sampleBlock "d") (sampleMark "" ';') (by decide)
      isWord_head := by decide
      isWord_word := by decide
      kind_name := rfl },
   .foreign
    { lead := [sampleWord "\n" "property", sampleWord " " "int", sampleWord " " "E"]
      ending := .block ⟨sampleMark " " '{', [], sampleMark " " '}', by decide, by decide,
        by decide⟩
      not_isWord_head := by
        rintro _ ⟨⟩ k
        cases k <;> decide
      plain := by decide }]

/-- The members of the sample. -/
theorem methodmap_members_sample :
    tokens sampleBody = samplePhrases.flatMap MemberPhrase.tokens ∧
      methods (tokens sampleBody)
        = [⟨"Map", .published, "Map", [⟨"a", "int", none, ""⟩], "public Map(int a)"⟩,
          ⟨"Get", .native, "int[]", [], "public static native int[] Get();"⟩] ∧
      properties (tokens sampleBody) = [⟨"H", "Handle"⟩] := by
  have h : tokens sampleBody = samplePhrases.flatMap MemberPhrase.tokens := by decide +kernel
  obtain ⟨hmethods, hproperties, -⟩ := methodmap_members h
  exact ⟨h, hmethods.trans (by decide +kernel), hproperties.trans (by decide +kernel)⟩

end Sample

end PawnApi.Declaration
