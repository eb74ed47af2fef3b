/-
  PawnApi.Proofs.Declarations

  Printed declarations and how they are found.

  The members of a methodmap are read back one by one, each leaving the tokens of the
  next, so what stands between the braces is the printed list (`MemberDecl.members_flatMap`).
  A methodmap and a typedef start at one place only, and of the three shapes only their
  own reads them; the declaration that is found in a printed text is therefore the one that
  was printed (`Decl.find?_tokens`).
-/
import PawnApi.Proofs.Callables
import PawnApi.Proofs.Members

namespace PawnApi.Print

open PawnApi.Source PawnApi.Declaration

/-! ## Members -/

namespace MemberDecl

/-- The tokens of a property behind the words that introduce it. -/
def propertyTail (type : TypeName) (ident : Ident) (body : Option Body) : List Token :=
  type.tokens [' '] ++ word [' '] ident.text :: (semicolonTokens body ++ braceTokens body)

def propertyTokens (gap : List Char) (type : TypeName) (ident : Ident) (body : Option Body) :
    List Token :=
  word gap "public".toList :: word [' '] "property".toList :: propertyTail type ident body

/-- The tokens of a member behind a gap. -/
def tokens (gap : List Char) : MemberDecl → List Token
  | callable f => f.tokens gap
  | property type ident body => propertyTokens gap type ident body

/-- The member that is declared. -/
def member : MemberDecl → Member
  | callable f => .method f.method
  | property type ident _ => .property ⟨ident.name, type.name⟩

theorem render_tokens (gap : List Char) (m : MemberDecl) :
    Token.render (m.tokens gap) = gap ++ m.text := by
  cases m with
  | callable f => rw [tokens, text, f.render_tokens]
  | property type ident body =>
    have hwords : "public property ".toList
        = "public".toList ++ ' ' :: ("property".toList ++ [' ']) := by decide
    unfold tokens propertyTokens propertyTail text propertyText
    rw [hwords]
    simp only [Token.render_cons, Token.render_append, type.render_tokens, render_semicolonTokens,
      render_braceTokens, gap_word, text_word]
    simp only [List.append_assoc, List.cons_append, List.nil_append]

theorem spells (m : MemberDecl) {gap : List Char} (hg : ∀ c ∈ gap, isSpace c = true)
    (after : List Char) : Spells (m.tokens gap) after := by
  cases m with
  | callable f => exact f.spells hg after
  | property type ident body =>
    have hend : Spells (semicolonTokens body ++ braceTokens body) after :=
      (spells_semicolonTokens body _).append (spells_braceTokens body after)
    have hbreaks : Breaks (Token.render (semicolonTokens body ++ braceTokens body) ++ after) := by
      rw [Token.render_append, render_semicolonTokens, render_braceTokens]
      cases body with
      | none => exact breaks_cons (c := ';') (by decide) _
      | some b => exact breaks_space _
    have hname :
        Spells (word [' '] ident.text :: (semicolonTokens body ++ braceTokens body)) after :=
      Spells.cons (spells_spaced ident.isWord hbreaks) hend
    have htype : Spells (propertyTail type ident body) after :=
      Spells.append (type.spells isSpace_of_mem_space (breaks_space _)) hname
    have hproperty : Spells (word [' '] "property".toList :: propertyTail type ident body) after :=
      Spells.cons (spells_spaced (by decide) (breaks_space _)) htype
    exact Spells.cons (spells_word hg (by decide) (breaks_space _)) hproperty

theorem neutral (m : MemberDecl) (gap : List Char) : Neutral '{' '}' (m.tokens gap) := by
  cases m with
  | callable f => exact f.neutral gap
  | property type ident body =>
    have hend := (neutral_semicolonTokens body).append (neutral_braceTokens body)
    have htype := (type.neutral (.inr ⟨rfl, rfl⟩) [' ']).append
      (Neutral.word [' '] ident.text hend)
    exact .word _ _ (.word _ _ htype)

/-- A function is not taken for a property: no keyword and no name is that word. -/
theorem propertyFollows?_callable (f : Callable) (t : Token) (rest : List Token) :
    propertyFollows? (t :: (f.headerTail ++ rest)) = none := by
  have hsecond : ∃ u us, f.headerTail ++ rest = u :: us ∧ u.isWord "property" = false := by
    rw [f.headerTail_append]
    cases f.more with
    | nil =>
      rw [List.map_nil, List.nil_append, Callable.nameTokens]
      cases f.result with
      | none => exact ⟨_, _, rfl, f.ident.isWord_word _ (by decide)⟩
      | some t => exact ⟨_, _, rfl, t.ident.isWord_word _ (by decide)⟩
    | cons q more =>
      refine ⟨_, _, rfl, ?_⟩
      cases q with
      | kind k => cases k <;> decide
      | static => decide
  obtain ⟨u, us, h, hu⟩ := hsecond
  simp [h, propertyFollows?, hu]

/-- The members of a body start with the first one that is printed in it. -/
theorem members_tokens (m : MemberDecl) (gap : List Char) {rest : List Token}
    (hr : ∀ t ∈ rest.head?, t.isPunct ';' = false) :
    members (m.tokens gap ++ rest) = m.member :: members rest := by
  cases m with
  | callable f =>
    -- Constructors are allowed here, so the result type may be missing.
    have hf := f.function?_tokens true (.inl rfl) (isWord_word gap (wordKind_keyword f.first)) rest
    rw [tokens, Callable.tokens, List.cons_append, List.append_assoc,
      members_of_memberAt? (memberAt?_of_function? (propertyFollows?_callable ..) hf),
      Function.toMethod, ofTokens_paramsTokens]
    rfl
  | property type ident body =>
    have hp : propertyFollows? (word gap "public".toList :: word [' '] "property".toList ::
        (propertyTail type ident body ++ rest)) = some (propertyTail type ident body ++ rest) :=
      rfl
    have hq : Declaration.property? (propertyTail type ident body ++ rest)
        = some (⟨ident.name, type.name⟩, semicolonTokens body ++ (braceTokens body ++ rest)) := by
      have ht : typeName? (type.tokens [' '] ++
            word [' '] ident.text :: (semicolonTokens body ++ (braceTokens body ++ rest)))
          = some (type.name,
            word [' '] ident.text :: (semicolonTokens body ++ (braceTokens body ++ rest))) :=
        typeName?_tokens type [' '] (by simp)
      simp [propertyTail, Declaration.property?, ht, ident?_word]
    rw [tokens, propertyTokens, List.cons_append, List.cons_append,
      members_of_memberAt? (memberAt?_of_property? hp hq), dropStatement_tokens body hr]
    rfl

theorem isPunct_head_tokens (gap : List Char) (ms : List MemberDecl) :
    ∀ t ∈ (ms.flatMap (tokens gap)).head?, t.isPunct ';' = false := by
  cases ms with
  | nil => simp
  | cons m ms =>
    cases m with
    | callable f =>
      rintro _ ⟨⟩
      exact isPunct_word ..
    | property type ident body =>
      rintro _ ⟨⟩
      exact isPunct_word ..

/-- All members are read back, in order. -/
theorem members_flatMap (gap : List Char) (ms : List MemberDecl) :
    members (ms.flatMap (tokens gap)) = ms.map member := by
  induction ms with
  | nil => rw [List.flatMap_nil, members, List.map_nil]
  | cons m ms ih =>
    rw [List.flatMap_cons, members_tokens m gap (isPunct_head_tokens gap ms), ih, List.map_cons]

theorem noReturn (m : MemberDecl) : '\r' ∉ m.text := by
  cases m with
  | callable f => exact f.noReturn
  | property type ident body =>
    unfold text propertyText
    have hline : OneLine ("public property ".toList ++ type.text ++ ' ' :: ident.text ++
        semicolon body) :=
      (((by decide : OneLine "public property ".toList).append type.oneLine).append
        (.cons (by decide) ident.oneLine)).append (oneLine_semicolon body)
    exact List.not_mem_append (fun h => (hline _ h).2 rfl) (noReturn_bodyText body)

end MemberDecl

/-! ## Methodmaps -/

def parentTokens : Option Ident → List Token
  | none => []
  | some i => [mark [' '] '<', word [' '] i.text]

theorem render_parentTokens (p : Option Ident) : Token.render (parentTokens p) = parentText p := by
  cases p with
  | none => rfl
  | some i => exact congrArg (" < ".toList ++ ·) (List.append_nil i.text)

namespace MethodmapDecl

def memberTokens (m : MethodmapDecl) : List Token :=
  m.members.flatMap (MemberDecl.tokens "\n    ".toList)

def headerTail (m : MethodmapDecl) : List Token :=
  word [' '] m.ident.text :: parentTokens m.parent

/-- The tokens of a methodmap behind a gap. -/
def tokens (gap : List Char) (m : MethodmapDecl) : List Token :=
  word gap "methodmap".toList :: (m.headerTail ++ block [' '] m.interior)

theorem render_headerTail (m : MethodmapDecl) :
    "methodmap".toList ++ Token.render m.headerTail = m.header := by
  have hword : "methodmap ".toList = "methodmap".toList ++ [' '] := by decide
  unfold header
  rw [hword, headerTail, Token.render_cons, render_parentTokens]
  simp only [gap_word, text_word, List.append_assoc]

theorem render_tokens (gap : List Char) (m : MethodmapDecl) :
    Token.render (m.tokens gap) = gap ++ m.text := by
  rw [tokens, Token.render_cons, Token.render_append, render_block, text, ← m.render_headerTail]
  simp only [gap_word, text_word, List.append_assoc, List.cons_append, List.nil_append]

theorem spells_memberTokens (m : MethodmapDecl) (after : List Char) :
    Spells m.memberTokens after :=
  Spells.flatMap m.members (fun d _ after => d.spells (by decide) after) after

theorem render_memberTokens (m : MethodmapDecl) :
    Token.render m.memberTokens ++ ['\n'] = m.interior := by
  rw [memberTokens, render_flatMap m.members fun d _ => d.render_tokens _]
  rfl

/-- The tokens between the braces are those of the members. -/
theorem lexFrom_interior (m : MethodmapDecl) :
    lexFrom false m.interior = ⟨m.memberTokens, ['\n']⟩ := by
  have hend : lexFrom false ['\n'] = ⟨[], ['\n']⟩ := by decide +kernel
  rw [← m.render_memberTokens, (m.spells_memberTokens ['\n']).lexFrom_eq, hend, Lexed.after,
    List.append_nil]

theorem closedBody_interior (m : MethodmapDecl) : ClosedBody m.interior where
  noReturn := by
    rw [interior]
    refine List.not_mem_append (fun h => ?_) (by decide)
    obtain ⟨d, -, hd⟩ := List.mem_flatMap.mp h
    exact List.not_mem_append (by decide) d.noReturn hd
  isOutside := by
    rw [← m.render_memberTokens, scan, (m.spells_memberTokens ['\n']).run_eq]
    rfl
  balanced := by
    have hb : Neutral '{' '}' m.memberTokens := Neutral.flatMap fun d _ => d.neutral _
    rw [Source.Balanced, ← level?_lexFrom '{' '}' false, m.lexFrom_interior]
    exact hb 0

theorem spells (m : MethodmapDecl) {gap : List Char} (hg : ∀ c ∈ gap, isSpace c = true)
    (after : List Char) : Spells (m.tokens gap) after := by
  have hblock : Spells (block [' '] m.interior) after :=
    spells_block isSpace_of_mem_space m.closedBody_interior after
  have hparent :
      Spells (parentTokens m.parent) (Token.render (block [' '] m.interior) ++ after) := by
    cases m.parent with
    | none => exact Spells.nil _
    | some i =>
      refine Spells.cons (spells_mark isSpace_of_mem_space (by decide) _)
        (spells_spaced i.isWord ?_)
      rw [render_block]
      exact breaks_space _
  have hbreaks : Breaks (Token.render (parentTokens m.parent) ++
      (Token.render (block [' '] m.interior) ++ after)) := by
    rw [render_parentTokens, render_block]
    cases m.parent with
    | none => exact breaks_space _
    | some i => exact breaks_space _
  have hname : Spells m.headerTail (Token.render (block [' '] m.interior) ++ after) :=
    Spells.cons (spells_spaced m.ident.isWord hbreaks) hparent
  exact Spells.cons (spells_word hg (by decide) (breaks_space _)) (hname.append hblock)

theorem oneLine_header (m : MethodmapDecl) : OneLine m.header := by
  have hparent : OneLine (parentText m.parent) := by
    cases m.parent with
    | none => decide
    | some i => exact OneLine.append (by decide) i.oneLine
  exact (OneLine.append (by decide) m.ident.oneLine).append hparent

theorem parent?_tokens (m : MethodmapDecl) (rest : List Token)
    (hr : ∀ t ∈ rest.head?, t.isPunct '<' = false) :
    parent? (parentTokens m.parent ++ rest) = some (m.parent.map Ident.name, rest) := by
  cases m.parent with
  | none =>
    cases rest with
    | nil => rfl
    | cons t rest => simp [parentTokens, parent?, hr t rfl]
  | some i => simp [parentTokens, parent?, ident?_word]

theorem opensLine_headerTail (m : MethodmapDecl) : ∀ t ∈ m.headerTail, t.opensLine = false := by
  rw [headerTail]
  cases m.parent with
  | none =>
    rintro _ (_ | ⟨_, ⟨⟩⟩)
    rfl
  | some i =>
    rintro _ (_ | ⟨_, _ | ⟨_, _ | ⟨_, ⟨⟩⟩⟩⟩) <;> rfl

theorem neutral_headerTail (m : MethodmapDecl) : Neutral '{' '}' m.headerTail := by
  refine Neutral.word _ _ ?_
  cases m.parent with
  | none => exact Neutral.nil
  | some i => exact .cons rfl rfl (.word _ _ .nil)

theorem methods_memberTokens (m : MethodmapDecl) :
    methods m.memberTokens = m.members.filterMap MemberDecl.method? := by
  rw [methods, memberTokens, MemberDecl.members_flatMap, List.filterMap_map]
  congr 1
  funext d
  cases d <;> rfl

theorem properties_memberTokens (m : MethodmapDecl) :
    properties m.memberTokens = m.members.filterMap MemberDecl.property? := by
  rw [properties, memberTokens, MemberDecl.members_flatMap, List.filterMap_map]
  congr 1
  funext d
  cases d <;> rfl

/-- What is read back from the tokens of a methodmap. -/
theorem methodmapAt?_tokens (m : MethodmapDecl) {t : Token} (ht : t.isWord "methodmap" = true)
    (tags : Doc.Tags) :
    methodmapAt? (t :: (m.headerTail ++ block [' '] m.interior))
      = some ((Decl.methodmap m).found tags) := by
  have hbody : Declaration.bodyTokens (block [' '] m.interior) = m.memberTokens := by
    have hg := closeGroup?_block m.closedBody_interior []
    rw [m.lexFrom_interior] at hg
    rw [block, m.lexFrom_interior, Declaration.bodyTokens]
    simp [hg]
  have hquote := quote_of_isWord ht m.render_headerTail m.oneLine_header (block [' '] m.interior)
  have hparent := m.parent?_tokens (block [' '] m.interior) (by simp [block])
  unfold Decl.found
  rw [headerTail, List.cons_append] at hquote ⊢
  rw [methodmapAt?, guard_of_eq_true ht]
  simp only [ident?_word, Option.bind_eq_bind, Option.bind_some, hparent, hbody,
    m.methods_memberTokens, m.properties_memberTokens, hquote]
  rfl

end MethodmapDecl

/-! ## Typedefs -/

namespace TypedefDecl

/-- The tokens from the opening parenthesis on. -/
def callTail (t : TypedefDecl) : List Token :=
  mark [' '] '(' :: (paramsTokens t.params ++ [mark [] ')', mark [] ';'])

/-- The tokens behind the keyword. -/
def tail (t : TypedefDecl) : List Token :=
  word [' '] t.ident.text :: mark [' '] '=' :: word [' '] "function".toList ::
    (t.result.tokens [' '] ++ t.callTail)

/-- The tokens of a typedef behind a gap. -/
def tokens (gap : List Char) (t : TypedefDecl) : List Token :=
  word gap "typedef".toList :: t.tail

theorem render_tail (t : TypedefDecl) : "typedef".toList ++ Token.render t.tail = t.text := by
  have htypedef : "typedef ".toList = "typedef".toList ++ [' '] := by decide
  have hfunction : " = function ".toList = ' ' :: '=' :: ' ' :: ("function".toList ++ [' ']) := by
    decide
  have hopen : " (".toList = [' ', '('] := by decide
  have hclose : ");".toList = [')', ';'] := by decide
  unfold tail callTail text
  rw [htypedef, hfunction, hopen, hclose]
  simp only [Token.render_cons, Token.render_append, Token.render_nil, gap_word, text_word,
    gap_mark, text_mark, t.result.render_tokens, render_paramsTokens]
  simp only [List.append_assoc, List.cons_append, List.nil_append, List.append_nil]

theorem render_tokens (gap : List Char) (t : TypedefDecl) :
    Token.render (t.tokens gap) = gap ++ t.text := by
  rw [tokens, Token.render_cons, gap_word, text_word, List.append_assoc, t.render_tail]

theorem spells_tail (t : TypedefDecl) (after : List Char) : Spells t.tail after := by
  have hend : Spells [mark [] ')', mark [] ';'] after :=
    Spells.cons (spells_glued (by decide) _) (spells_glued (by decide) _)
  have hparams : Spells (paramsTokens t.params ++ [mark [] ')', mark [] ';']) after :=
    Spells.append (spells_paramsTokens t.params (by decide) _) hend
  have hcall : Spells t.callTail after :=
    Spells.cons (spells_mark isSpace_of_mem_space (by decide) _) hparams
  have hresult : Spells (t.result.tokens [' '] ++ t.callTail) after :=
    Spells.append (t.result.spells isSpace_of_mem_space (breaks_space _)) hcall
  have hword : IsWord "function".toList := by decide
  have hfunction := Spells.cons (spells_spaced hword (breaks_space _)) hresult
  exact Spells.cons (spells_spaced t.ident.isWord (breaks_space _))
    (Spells.cons (spells_mark isSpace_of_mem_space (by decide) _) hfunction)

theorem spells (t : TypedefDecl) {gap : List Char} (hg : ∀ c ∈ gap, isSpace c = true)
    (after : List Char) : Spells (t.tokens gap) after :=
  Spells.cons (spells_word hg (by decide) (breaks_space _)) (t.spells_tail after)

theorem oneLine (t : TypedefDecl) : OneLine t.text := by
  have hhead : OneLine ("typedef ".toList ++ t.ident.text ++ " = function ".toList) :=
    ((by decide : OneLine "typedef ".toList).append t.ident.oneLine).append (by decide)
  exact (((hhead.append t.result.oneLine).append (by decide)).append
    (oneLine_paramsText t.params)).append (by decide)

theorem neutral_tail (t : TypedefDecl) : Neutral '{' '}' t.tail := by
  have hcall : Neutral '{' '}' t.callTail :=
    .cons rfl rfl ((neutral_paramsTokens t.params (.inr ⟨rfl, rfl⟩)).append
      (.cons rfl rfl (.cons rfl rfl .nil)))
  have hresult := (t.result.neutral (.inr ⟨rfl, rfl⟩) [' ']).append hcall
  exact .word _ _ (.cons rfl rfl (.word _ _ hresult))

/-- What is read back from the tokens of a typedef. -/
theorem typedefAt?_tokens (d : TypedefDecl) {t : Token} (ht : t.isWord "typedef" = true)
    (tags : Doc.Tags) : typedefAt? tags (t :: d.tail) = some ((Decl.typedef d).found tags) := by
  have hresult : typeName? (d.result.tokens [' '] ++ d.callTail)
      = some (d.result.name, d.callTail) :=
    typeName?_tokens d.result [' '] (by simp [callTail])
  have hgroup : group? '(' ')' d.callTail
      = some ⟨paramsTokens d.params, mark [] ')', [mark [] ';']⟩ :=
    group?_paramsTokens d.params [' '] [mark [] ';']
  have hquote := quote_of_isWord ht d.render_tail d.oneLine []
  rw [List.append_nil] at hquote
  have hfollows : functionTypeFollows? (mark [' '] '=' :: word [' '] "function".toList ::
      (d.result.tokens [' '] ++ d.callTail)) = some (d.result.tokens [' '] ++ d.callTail) := rfl
  have hend : afterSemicolon? [mark [] ';'] = some [] := rfl
  unfold Decl.found
  rw [tail] at hquote ⊢
  rw [typedefAt?, guard_of_eq_true ht]
  simp only [ident?_word, Option.bind_eq_bind, Option.bind_some, hfollows, hresult, hgroup, hend,
    hquote, ofTokens_paramsTokens]
  rfl

end TypedefDecl

/-! ## Finding the declaration -/

/-- Behind the first token the gaps decide which tokens open a line. -/
theorem opensLine_of_mem_lexFrom {first : Bool} {s : List Char} (hf : first = false) :
    ∀ t ∈ (lexFrom first s).tokens, t.opensLine = t.gap.contains '\n' := by
  fun_induction lexFrom first s with
  | case1 => simp
  | case2 first s gap c r h t l ih =>
    intro t ht
    rcases List.mem_cons.mp ht with rfl | ht
    · -- The flag is `first || gap.contains '\n'`.
      rw [hf, Bool.false_or]
    · exact ih rfl t ht

theorem opensLine_of_oneLine {ts : List Token} (hs : Spells ts [])
    (hr : OneLine (Token.render ts)) : ∀ t ∈ ts, t.opensLine = false := by
  intro t ht
  have hlex : (lexFrom false (Token.render ts)).tokens = ts := by
    have h := hs.lexFrom_eq
    rw [List.append_nil] at h
    rw [h, lexFrom_of_splitGap_nil false (by rw [splitGap]), Lexed.after, List.append_nil]
  have hopen := opensLine_of_mem_lexFrom (s := Token.render ts) rfl t (hlex.symm ▸ ht)
  rw [hopen, List.contains_eq_mem, decide_eq_false_iff_not]
  intro hgap
  refine (hr '\n' ?_).1 rfl
  exact List.mem_flatMap.mpr ⟨t, ht, List.mem_append_left _ hgap⟩

theorem statementsFrom_of_opensLine {ts : List Token} (h : ∀ t ∈ ts, t.opensLine = false)
    (d : Nat) : statementsFrom d ts = [] := by
  induction ts generalizing d with
  | nil => rfl
  | cons t ts ih =>
    rw [statementsFrom, if_neg]
    · exact ih (fun u hu => h u (List.mem_cons_of_mem t hu)) _
    · rw [h t List.mem_cons_self]
      simp

/-- Behind a header on one line nothing else may start. -/
theorem statementsFrom_block {body : List Char} (hb : ClosedBody body) :
    statementsFrom 0 (block [' '] body) = [] := by
  have hopen : depthAfter 0 (mark [' '] '{') = 1 := rfl
  rw [block, statementsFrom, if_neg (by decide), hopen, statementsFrom_append,
    statementsFrom_of_level? (hb.level?_eq 0), foldl_of_level? (hb.level?_eq 1)]
  rfl

theorem statements_of_isWord {t : Token} {w : String} (ht : t.isWord w = true)
    (ho : t.opensLine = true) (us : List Token) :
    statements (t :: us) = (t :: us) :: statementsFrom 0 us := by
  have hpunct : ∀ c, t.isPunct c = false := by
    intro c
    cases hc : t.isPunct c with
    | false => rfl
    | true =>
      rw [Token.isWord_of_isPunct hc] at ht
      cases ht
  have hd : depthAfter 0 t = 0 := by
    simp [depthAfter, hpunct]
  rw [statements, statementsFrom, hd, if_pos ⟨rfl, ho⟩]

namespace Decl

/-- The word that a declaration starts with. -/
def keyword : Decl → String
  | function f _ => f.first.keyword
  | methodmap _ => "methodmap"
  | typedef _ => "typedef"

/-- The tokens of a declaration behind the first. -/
def tail : Decl → List Token
  | function f _ => f.headerTail ++ braceTokens f.body
  | methodmap m => m.headerTail ++ block [' '] m.interior
  | typedef d => d.tail

theorem wordKind_keyword (d : Decl) : wordKind d.keyword.toList = .ident := by
  cases d with
  | function f h => exact Print.wordKind_keyword f.first
  | methodmap m =>
    show wordKind "methodmap".toList = .ident
    decide
  | typedef t =>
    show wordKind "typedef".toList = .ident
    decide

theorem isWord_keyword (d : Decl) : IsWord d.keyword.toList := by
  cases d with
  | function f h => exact Print.isWord_keyword f.first
  | methodmap m => exact (by decide : IsWord "methodmap".toList)
  | typedef t => exact (by decide : IsWord "typedef".toList)

theorem render_tokens (d : Decl) (gap : List Char) :
    Token.render (word gap d.keyword.toList :: d.tail) = gap ++ d.text := by
  cases d with
  | function f h => exact f.render_tokens gap
  | methodmap m => exact m.render_tokens gap
  | typedef t => exact t.render_tokens gap

theorem spells (d : Decl) {gap : List Char} (hg : ∀ c ∈ gap, isSpace c = true)
    (after : List Char) : Spells (word gap d.keyword.toList :: d.tail) after := by
  cases d with
  | function f h => exact f.spells hg after
  | methodmap m => exact m.spells hg after
  | typedef t => exact t.spells hg after

/-- A printed declaration closes every brace it opens. -/
theorem neutral_tail (d : Decl) : Neutral '{' '}' d.tail := by
  cases d with
  | function f h => exact f.neutral_tail
  | methodmap m => exact m.neutral_headerTail.append (neutral_block m.closedBody_interior [' '])
  | typedef t => exact t.neutral_tail

theorem neutral (d : Decl) (gap : List Char) :
    Neutral '{' '}' (word gap d.keyword.toList :: d.tail) :=
  .word _ _ d.neutral_tail

theorem noReturn (d : Decl) : '\r' ∉ d.text := by
  cases d with
  | function f h => exact f.noReturn
  | methodmap m =>
    have hinterior := m.closedBody_interior.noReturn
    refine List.not_mem_append (fun h => (m.oneLine_header _ h).2 rfl) ?_
    simp [hinterior]
  | typedef t => exact fun h => (t.oneLine _ h).2 rfl

/-- The declaration that is found in the tokens of a printed one. -/
theorem find?_tokens (tags : Doc.Tags) (d : Decl) {t : Token} (ht : t.isWord d.keyword = true)
    (ho : t.opensLine = true) : find? tags (t :: d.tail) = some (d.found tags) := by
  -- The first token opens a place to read from; the shapes are tried there in turn.
  rw [find?, statements_of_isWord ht ho]
  cases d with
  | function f h =>
    have hread := f.function?_tokens false (.inr h) ht []
    rw [List.append_nil] at hread
    have hat : functionAt? tags (t :: (function f h).tail) = some ((function f h).found tags) := by
      simp [functionAt?, tail, hread, found, ofTokens_paramsTokens]
    rw [List.findSome?_cons, hat]
    rfl
  | methodmap m =>
    -- Members open lines as well, but inside the braces.
    have hrest : statementsFrom 0 (methodmap m).tail = [] := by
      rw [tail, statementsFrom_append, statementsFrom_of_opensLine m.opensLine_headerTail,
        foldl_of_level? (m.neutral_headerTail 0), statementsFrom_block m.closedBody_interior]
      rfl
    have hf : functionAt? tags (t :: (methodmap m).tail) = none :=
      functionAt?_of_kind?_eq_none ((kind?_of_isWord ht).trans rfl) tags _
    have hm : methodmapAt? (t :: (methodmap m).tail) = some ((methodmap m).found tags) :=
      m.methodmapAt?_tokens ht tags
    simp only [hrest, List.findSome?_cons, hf, hm, List.findSome?_nil]
    rfl
  | typedef d =>
    have hline : OneLine (Token.render d.tail) := by
      have h := d.oneLine
      rw [← d.render_tail] at h
      exact fun c hc => h c (List.mem_append_right _ hc)
    have hrest : statementsFrom 0 (typedef d).tail = [] :=
      statementsFrom_of_opensLine (opensLine_of_oneLine (d.spells_tail []) hline) 0
    have hf : functionAt? tags (t :: (typedef d).tail) = none :=
      functionAt?_of_kind?_eq_none ((kind?_of_isWord ht).trans rfl) tags _
    have hm : methodmapAt? (t :: (typedef d).tail) = none := by
      apply methodmapAt?_of_isWord_eq_false
      rw [Token.isWord, text_of_isWord ht]
      simp [keyword]
    have hd : typedefAt? tags (t :: (typedef d).tail) = some ((typedef d).found tags) :=
      d.typedefAt?_tokens ht tags
    simp only [hrest, List.findSome?_cons, hf, hm, hd, List.findSome?_nil]
    rfl

end Decl

end PawnApi.Print
