/-
  PawnApi.Proofs.Bytewise.Declarations

  The declaration of a code read by offsets.

  Functions, methodmaps and typedefs are looked for at every token that opens a line
  outside braces. The body of a methodmap and the parameter lists are cut out and lexed
  again; since a text that is cut out between two tokens has the tokens that lie in it,
  what is found is what the tokens of the code hold (`classify_eq`).
-/
import PawnApi.Proofs.Bytewise.Members
import PawnApi.Proofs.Recasting

namespace PawnApi.Bytewise

open PawnApi.Source PawnApi.Declaration

/-! ## Methodmaps -/

/-- Reads the parent of a methodmap, if a less-than sign announces one. -/
def parent : Read (Option String) := do
  let announced ← eatPunct '<'
  if announced then
    let name ← ident
    return some name
  else return none

/-- One turn of looking for the body of a methodmap. -/
def bodyTurn (c : Cursor) : Checked (Turn Cursor (List Method × List Property)) :=
  match c.peek with
  | none => .ok (.done ([], []))
  | some t =>
    if t.isPunct '{' then do
      match ← balanced '{' '}' c with
      | (some (start, stop), _) => do
        let text ← excerpt c.source start stop
        let found ← methodmapBody text
        return .done found
      | (none, _) => return .done ([], [])
    else return if t.isPunct ';' then .done ([], []) else .again c.next

def bodyLoop : Loop Cursor (List Method × List Property) where
  left := Cursor.left
  body := bodyTurn
  exit _ := ([], [])
  progress := by
    intro c c' hpos h
    have hnext : c' = c.next := by
      unfold bodyTurn at h
      split at h
      · cases h
      split at h
      · obtain ⟨⟨found, c₁⟩, -, h'⟩ := bind_eq_ok_iff.1 h
        cases found with
        | none => cases h'
        | some span =>
          obtain ⟨text, -, h''⟩ := bind_eq_ok_iff.1 h'
          obtain ⟨members, -, h'''⟩ := bind_eq_ok_iff.1 h''
          cases h'''
      · split at h <;> cases h
        rfl
    subst hnext
    exact Cursor.left_lt hpos c.ahead_next (Nat.lt_succ_self _)

/-- Reads what follows the keyword of a methodmap that starts at `start`. -/
def methodmapBehind (start : Nat) : Read Found := do
  let name ← ident
  let inherits ← parent
  let c ← Read.here
  let last ← Read.get c.prev
  let found ← Read.lift (bodyLoop.run c)
  let text ← Read.lift (excerpt c.source start last.stop)
  return ⟨name, .methodmap inherits found.1 found.2, written text⟩

/-! ## Typedefs -/

/-- Reads the equals sign and the word that announce a function type. -/
def functionType : Read Unit := do
  let equals ← eatPunct '='
  if equals then
    let announced ← eatWord "function"
    if announced then return () else Read.nothing
  else Read.nothing

/-- Reads the parameter list and the end of a typedef that starts at `start`. -/
def typedefEnd (tags : Doc.Tags) (start : Nat) (name returnType : String) : Read Found := do
  let (left, right) ← balanced '(' ')'
  let c ← Read.here
  if c.peekPunct ';' then
    let semicolon ← token
    let raw ← Read.lift (excerpt c.source left right)
    let params ← Read.lift (parseParams raw tags)
    let text ← Read.lift (excerpt c.source start semicolon.stop)
    return ⟨name, .typedef returnType params, written text⟩
  else Read.nothing

/-- Reads what follows the keyword of a typedef that starts at `start`. -/
def typedefBehind (tags : Doc.Tags) (start : Nat) : Read Found := do
  let name ← ident
  functionType
  let returnType ← typeName
  typedefEnd tags start name returnType

/-! ## The declaration of a code -/

/-- Reads a function with its parameters. -/
def functionFound (tags : Doc.Tags) : Read Found := do
  let f ← function false
  let params ← Read.lift (parseParams f.params tags)
  return ⟨f.name, .function f.kind f.returnType params, f.written⟩

/-- Reads a declaration that a word introduces. -/
def introduced (w : String) (behind : Nat → Read Found) : Read Found := do
  let c ← Read.here
  let first ← Read.get c.peek
  let found ← eatWord w
  if found then behind first.start else Read.nothing

def methodmap : Read Found :=
  introduced "methodmap" methodmapBehind

def typedef (tags : Doc.Tags) : Read Found :=
  introduced "typedef" (typedefBehind tags)

/-- The places of the tokens that open a line outside braces, counted from `i`. -/
def startsFrom (i depth : Nat) : List Placed → List Nat
  | [] => []
  | t :: ts =>
    let later := startsFrom (i + 1)
      (if t.isPunct '{' then depth + 1 else if t.isPunct '}' then depth - 1 else depth) ts
    if depth = 0 ∧ t.opensLine then i :: later else later

/-- What a reader finds at the first of some places where it finds something. -/
def findAt {α : Type} (x : Read α) (s : List Char) (ts : List Placed) :
    List Nat → Checked (Option α)
  | [] => .ok none
  | i :: is => do
    match ← x ⟨s, ts, i⟩ with
    | (some a, _) => return some a
    | (none, _) => findAt x s ts is

/-- The declaration that a code holds. -/
def find (tags : Doc.Tags) (code : List Char) : Checked (Option Found) := do
  let ts ← tokenize code
  let starts := startsFrom 0 0 ts
  match ← findAt (functionFound tags) code ts starts with
  | some d => return some d
  | none =>
    match ← findAt methodmap code ts starts with
    | some d => return some d
    | none => findAt (typedef tags) code ts starts

/-- The entry for the declaration in a code, documented by a comment. -/
def classify (code : List Char) (comment : Doc.Comment) (file : String) :
    Checked (Option Entry) := do
  let found ← find comment.tags code
  return found.map fun d =>
    { name := d.name
      shape := d.shape
      comment := comment.description
      tags := comment.tags
      fullDeclaration := d.written
      sourceFile := file }

/-! ## Bodies lexed again -/

section FirstToken

open PawnApi.Param (KeepsText)

variable {f : Token → Token} (hf : KeepsText f)

include hf

theorem function?_modifyHead (constructors : Bool) (t : Token) (us : List Token) :
    function? constructors (f t :: us) = function? constructors (t :: us) := by
  have hkind : kind? (f t) = kind? t := by
    rw [kind?, kind?, Token.ident?, Token.ident?, (hf t).1, (hf t).2]
  have hquote := quote_modifyHead hf (t :: us)
  rw [List.modifyHead_cons] at hquote
  simp only [function?, hkind, hquote]

theorem memberAt?_modifyHead (t : Token) (us : List Token) :
    memberAt? (f t :: us) = memberAt? (t :: us) := by
  have hproperty : propertyFollows? (f t :: us) = propertyFollows? (t :: us) := by
    cases us with
    | nil => rfl
    | cons u us =>
      have hword : (f t).isWord "public" = t.isWord "public" := by
        rw [Token.isWord, Token.isWord, (hf t).1, (hf t).2]
      simp only [propertyFollows?, hword]
  rw [memberAt?, memberAt?, hproperty, function?_modifyHead hf]

/-- What a body holds does not depend on what stands before its first token. -/
theorem members_modifyHead (ts : List Token) : members (ts.modifyHead f) = members ts := by
  cases ts with
  | nil => rfl
  | cons t us =>
    have hdrop : dropStatement (f t :: us) = dropStatement (t :: us) := by
      simp only [dropStatement, hf.isPunct_eq]
    rw [List.modifyHead_cons, members_cons, members_cons, memberAt?_modifyHead hf, hdrop]

end FirstToken

/-- The text of a group has the members of the tokens inside. -/
theorem methodmapBody_groupText {s : List Char} {opn cls : Char} {ts : List Token} {g : Group}
    (hts : ts <:+ Source.tokens s) (h : group? opn cls ts = some g) :
    methodmapBody g.text = .ok (methods g.inside, properties g.inside) := by
  rw [methodmapBody_eq, tokens_groupText hts h, methods, properties,
    members_modifyHead keepsText_opening]
  rfl

/-! ## What the readers find -/

section Text

open Cursor Reads

variable {s : List Char} {ts : List Token}

/-- The body of a methodmap is looked for at a cursor as it is in the tokens. -/
theorem run_bodyLoop (hts : ts <:+ Source.tokens s) :
    bodyLoop.run (before s ts) = .ok (methods (bodyTokens ts), properties (bodyTokens ts)) := by
  have hnil : ([], []) = (methods [], properties []) := by
    simp [methods, properties, members]
  induction ts with
  | nil =>
    rw [Loop.run_of_left_eq_zero (show (before s []).left = 0 from left_before hts)]
    exact congrArg Except.ok hnil
  | cons t us ih =>
    have hus : us <:+ Source.tokens s := (List.suffix_cons t us).trans hts
    have hpos : 0 < bodyLoop.left (before s (t :: us)) := left_before_pos hts
    have hsource : (before s (t :: us)).source = s := rfl
    obtain ⟨lead, hlead⟩ := hts
    have hpeek := peek_before hlead.symm
    rw [bodyTokens]
    split
    · rename_i hbrace
      have hgroup : group? '{' '}' (t :: us) = closeGroup? '{' '}' 0 us := by
        rw [group?, if_pos hbrace]
      refine Loop.run_of_done hpos ?_
      change bodyTurn (before s (t :: us)) = _
      unfold bodyTurn
      rw [hpeek]
      simp only [isPunct_placeAt hlead.symm, hbrace, if_true]
      cases hg : closeGroup? '{' '}' 0 us with
      | some g =>
        obtain ⟨start, stop, hspan, htext⟩ :=
          balanced_before_of_some ⟨lead, hlead⟩ (hgroup.trans hg)
        rw [hspan, ok_bind]
        simp only [hsource, htext, ok_bind,
          methodmapBody_groupText ⟨lead, hlead⟩ (hgroup.trans hg)]
        rfl
      | none =>
        rw [balanced_before_of_none ⟨lead, hlead⟩ (hgroup.trans hg), ok_bind]
        exact congrArg (fun p => Except.ok (Turn.done p)) hnil
    · rename_i hbrace
      have hturn : bodyLoop.body (before s (t :: us)) =
          .ok (if t.isPunct ';' then .done ([], []) else .again (before s us)) := by
        change bodyTurn (before s (t :: us)) = _
        unfold bodyTurn
        rw [hpeek]
        simp only [isPunct_placeAt hlead.symm, hbrace, Bool.false_eq_true, if_false,
          next_before ⟨lead, hlead⟩]
        rfl
      split
      · rename_i hsemi
        rw [if_pos hsemi] at hturn
        rw [Loop.run_of_done hpos hturn, hnil]
      · rename_i hsemi
        rw [if_neg hsemi] at hturn
        rw [Loop.run_of_again hpos hturn]
        exact ih hus

theorem Reads.parent (hts : ts <:+ Source.tokens s) : Reads s parent ts (parent? ts) := by
  refine bind_some (Reads.eatPunct hts '<') ?_
  cases ts with
  | nil => exact Reads.pure none
  | cons t us =>
    rw [List.head?_cons, Option.any_some, parent?, Param.dropPunct]
    split
    · exact (Reads.ident ((List.suffix_cons t us).trans hts)).map some
    · exact Reads.pure none

/-- Before the last tokens of a text, the reader finds what `f` finds in them. -/
def Finds {α : Type} (s : List Char) (x : Read α) (f : List Token → Option α) : Prop :=
  ∀ ts, ts <:+ Source.tokens s → ∃ c, x (before s ts) = .ok (f ts, c)

theorem Reads.finds {α : Type} {x : Read α} {found : Option (α × List Token)}
    (h : Reads s x ts found) : ∃ c, x (before s ts) = .ok (found.map Prod.fst, c) := by
  obtain ⟨c, hc⟩ := h
  cases found with
  | none => exact ⟨c, hc⟩
  | some p => exact ⟨_, hc⟩

theorem suffix_of_parent? {rest : List Token} {inherits : Option String}
    (h : parent? ts = some (inherits, rest)) : rest <:+ ts := by
  cases ts with
  | nil =>
    cases h
    exact List.suffix_refl _
  | cons t us =>
    rw [parent?] at h
    split at h
    · obtain ⟨p, hp, heq⟩ := Option.map_eq_some_iff.1 h
      cases heq
      exact (suffix_of_ident? hp).trans (List.suffix_cons t us)
    · cases h
      exact List.suffix_refl _

/-- The header of a methodmap ends with its name or with the name of its parent. -/
theorem exists_last_of_parent? {us rest after : List Token} {name : String}
    {inherits : Option String} {lead : List Token} {t : Token}
    (h : Source.tokens s = lead ++ t :: us) (hname : ident? us = some (name, rest))
    (hparent : parent? rest = some (inherits, after)) :
    ∃ front u, t :: us = front ++ u :: after ∧ Solid u := by
  have hsolid {front after : List Token} {u : Token} (hu : t :: us = front ++ u :: after)
      (hk : u.kind = .ident) : Solid u := by
    have hsplit : Source.tokens s = lead ++ front ++ u :: after := by
      rw [h, hu]
      simp
    exact Solid.of_ident hsplit hk
  obtain ⟨n, rfl, hn, -⟩ := ident?_eq_some_iff.1 hname
  have hlast : t :: n :: rest = [t] ++ n :: rest := rfl
  cases rest with
  | nil =>
    cases hparent
    exact ⟨[t], n, rfl, hsolid hlast hn⟩
  | cons v vs =>
    rw [parent?] at hparent
    split at hparent
    · obtain ⟨p, hp, heq⟩ := Option.map_eq_some_iff.1 hparent
      cases heq
      obtain ⟨m, rfl, hm, -⟩ := ident?_eq_some_iff.1 hp
      have hlast' : t :: n :: v :: m :: p.2 = [t, n, v] ++ m :: p.2 := rfl
      exact ⟨[t, n, v], m, rfl, hsolid hlast' hm⟩
    · cases hparent
      exact ⟨[t], n, rfl, hsolid hlast hn⟩

/-- A declaration is introduced by a word and read behind it. -/
theorem finds_introduced {w : String} {behind : Nat → Read Found}
    {f : List Token → Option Found} (hnil : f [] = none)
    (hword : ∀ t us, t.isWord w = false → f (t :: us) = none)
    (hbehind : ∀ lead t us, Source.tokens s = lead ++ t :: us → t.isWord w = true →
      ∃ found, Reads s (behind (placeAt lead t).start) us found ∧
        found.map Prod.fst = f (t :: us)) :
    Finds s (introduced w behind) f := by
  intro ts hts
  cases ts with
  | nil =>
    have hnone : Reads s (introduced w behind) [] none := by
      refine bind_some here ?_
      rw [peek_before_nil]
      exact bind_none get_none
    rw [hnil]
    exact hnone.finds
  | cons t us =>
    have heat := Reads.eatWord hts w
    obtain ⟨lead, hlead⟩ := hts
    have hpeek := peek_before hlead.symm
    rw [List.head?_cons, Option.any_some, Param.dropWord] at heat
    cases ht : t.isWord w with
    | false =>
      have hnone : Reads s (introduced w behind) (t :: us) none := by
        refine bind_some here ?_
        rw [hpeek]
        rw [ht] at heat
        exact bind_some (get_some _) (bind_some heat Reads.nothing)
      rw [hword t us ht]
      exact hnone.finds
    | true =>
      obtain ⟨found, hfound, hmap⟩ := hbehind lead t us hlead.symm ht
      have hreads : Reads s (introduced w behind) (t :: us) found := by
        refine bind_some here ?_
        rw [hpeek]
        rw [ht] at heat
        exact bind_some (get_some _) (bind_some heat hfound)
      rw [← hmap]
      exact hreads.finds

/-- A methodmap is read at a cursor as it is from the tokens. -/
theorem finds_methodmap : Finds s methodmap methodmapAt? := by
  refine finds_introduced rfl (fun t us ht => by simp [methodmapAt?, ht]) ?_
  intro lead t us h ht
  have hk : t.kind = .ident := (Param.ident?_eq_some_iff.1 (ident?_eq_some_iff_isWord.2 ht)).1
  have hus : us <:+ Source.tokens s := ⟨lead ++ [t], by simpa using h.symm⟩
  have hident := Reads.ident hus
  rw [methodmapAt?, ht]
  cases hi : ident? us with
  | none =>
    rw [hi] at hident
    exact ⟨none, bind_none hident, rfl⟩
  | some p =>
    obtain ⟨name, rest⟩ := p
    rw [hi] at hident
    have hrest : rest <:+ us := suffix_of_ident? hi
    have hparent := Reads.parent (hrest.trans hus)
    cases hp : parent? rest with
    | none =>
      rw [hp] at hparent
      exact ⟨none, bind_some hident (bind_none hparent), by simp [hp]⟩
    | some q =>
      obtain ⟨inherits, after⟩ := q
      rw [hp] at hparent
      have hafter : after <:+ us := (suffix_of_parent? hp).trans hrest
      obtain ⟨u, hprev, hstop⟩ := exists_prev_before ⟨lead, h.symm⟩ hafter
      -- the header is cut out through the last token before the body
      obtain ⟨front, v, hv, hsolid⟩ := exists_last_of_parent? h hi hp
      obtain ⟨text, hcut, hwritten⟩ := excerpt_quote h hk hv hsolid
      rw [← hstop] at hcut
      refine ⟨some (⟨name, .methodmap inherits (methods (bodyTokens after))
        (properties (bodyTokens after)), written text⟩, after), bind_some hident
          (bind_some hparent (bind_some here ?_)), ?_⟩
      · rw [hprev]
        exact bind_some (get_some u) (bind_some (lift (run_bodyLoop (hafter.trans hus)))
          (bind_some (lift hcut) (Reads.pure _)))
      · rw [hwritten]
        simp [hp]

theorem Reads.functionType (hts : ts <:+ Source.tokens s) :
    Reads s functionType ts ((functionTypeFollows? ts).map fun rest => ((), rest)) := by
  refine bind_some (Reads.eatPunct hts '=') ?_
  cases ts with
  | nil => exact Reads.nothing
  | cons t us =>
    rw [List.head?_cons, Option.any_some, Param.dropPunct]
    cases ht : t.isPunct '=' with
    | false =>
      have hnone : functionTypeFollows? (t :: us) = none := by
        cases us <;> simp [functionTypeFollows?, ht]
      rw [hnone]
      exact Reads.nothing
    | true =>
      have hus : us <:+ Source.tokens s := (List.suffix_cons t us).trans hts
      refine bind_some (Reads.eatWord hus "function") ?_
      cases us with
      | nil => exact Reads.nothing
      | cons u us =>
        rw [List.head?_cons, Option.any_some, Param.dropWord, functionTypeFollows?, ht]
        cases u.isWord "function" with
        | false => exact Reads.nothing
        | true => exact Reads.pure ()

/-- Behind the return type of a typedef: its parameters and the end of its statement. -/
theorem Reads.typedefEnd {lead us behind : List Token} {t : Token}
    (h : Source.tokens s = lead ++ t :: us) (hk : t.kind = .ident) (hbehind : behind <:+ us)
    (tags : Doc.Tags) (name returnType : String) :
    ∃ found, Reads s (typedefEnd tags (placeAt lead t).start name returnType) behind found ∧
      found.map Prod.fst = (group? '(' ')' behind).bind fun g =>
        (afterSemicolon? g.rest).map fun after =>
          ⟨name, .typedef returnType (Param.ofTokens tags g.inside), quote (t :: us) after⟩ := by
  have hbehind' : behind <:+ Source.tokens s :=
    hbehind.trans ⟨lead ++ [t], by simpa using h.symm⟩
  cases hg : group? '(' ')' behind with
  | none =>
    exact ⟨none, bind_none (of_none (balanced_before_of_none hbehind' hg)), rfl⟩
  | some g =>
    obtain ⟨left, right, hspan, htext⟩ := balanced_before_of_some hbehind' hg
    have hrest := suffix_of_group? hg
    have hpunct := peekPunct_before (hrest.trans hbehind') ';'
    rw [Option.bind_some]
    cases hgr : g.rest with
    | nil =>
      rw [hgr] at hspan hpunct
      refine ⟨none, bind_some (of_some hspan) (bind_some here ?_), rfl⟩
      rw [hpunct]
      exact Reads.nothing
    | cons u after =>
      rw [hgr] at hspan hpunct hrest
      rw [List.head?_cons, Option.any_some] at hpunct
      rw [afterSemicolon?]
      split
      · -- the semicolon is the last token that is quoted
        rename_i hsemi
        obtain ⟨front, hfront⟩ := hbehind
        obtain ⟨mid, hmid⟩ := hrest
        have hu : t :: us = t :: front ++ mid ++ u :: after := by
          rw [← hfront, ← hmid]
          simp
        have hsplit : Source.tokens s = lead ++ (t :: front ++ mid) ++ u :: after := by
          rw [h, hu]
          simp
        have hend : Source.tokens s = lead ++ (t :: front ++ mid) ++ [u] ++ after := by
          rw [hsplit]
          simp
        obtain ⟨text, hcut, hwritten⟩ :=
          excerpt_quote h hk hu (.of_isPunct hsemi (by decide))
        rw [endBefore_eq hend, ← stop_placeAt] at hcut
        refine ⟨some (⟨name, .typedef returnType (Param.ofTokens tags g.inside), written text⟩,
          after), bind_some (of_some hspan) (bind_some here ?_), ?_⟩
        · rw [hpunct, if_pos hsemi]
          exact bind_some (Reads.token hsplit) (bind_some (lift htext)
            (bind_some (lift (parseParams_groupText hbehind' hg tags))
              (bind_some (lift hcut) (Reads.pure _))))
        · rw [hwritten]
          rfl
      · rename_i hsemi
        refine ⟨none, bind_some (of_some hspan) (bind_some here ?_), rfl⟩
        rw [hpunct, if_neg hsemi]
        exact Reads.nothing

/-- A typedef is read at a cursor as it is from the tokens. -/
theorem finds_typedef (tags : Doc.Tags) : Finds s (typedef tags) (typedefAt? tags) := by
  refine finds_introduced rfl (fun t us ht => by simp [typedefAt?, ht]) ?_
  intro lead t us h ht
  have hk : t.kind = .ident := (Param.ident?_eq_some_iff.1 (ident?_eq_some_iff_isWord.2 ht)).1
  have hus : us <:+ Source.tokens s := ⟨lead ++ [t], by simpa using h.symm⟩
  have hident := Reads.ident hus
  rw [typedefAt?, ht]
  cases hi : ident? us with
  | none =>
    rw [hi] at hident
    exact ⟨none, bind_none hident, rfl⟩
  | some p =>
    obtain ⟨name, rest⟩ := p
    rw [hi] at hident
    have hrest : rest <:+ us := suffix_of_ident? hi
    have hfun := Reads.functionType (hrest.trans hus)
    cases hf : functionTypeFollows? rest with
    | none =>
      rw [hf] at hfun
      exact ⟨none, bind_some hident (bind_none hfun), by simp [hf]⟩
    | some after =>
      rw [hf] at hfun
      have hafter : after <:+ us := (suffix_of_functionTypeFollows? hf).trans hrest
      have htype := Reads.typeName (hafter.trans hus)
      cases hty : typeName? after with
      | none =>
        rw [hty] at htype
        exact ⟨none, bind_some hident (bind_some hfun (bind_none htype)), by simp [hf, hty]⟩
      | some q =>
        obtain ⟨returnType, behind⟩ := q
        rw [hty] at htype
        have hbehind : behind <:+ us := (suffix_of_typeName? hty).trans hafter
        obtain ⟨found, hfound, hmap⟩ := Reads.typedefEnd h hk hbehind tags name returnType
        refine ⟨found, bind_some hident (bind_some hfun (bind_some htype hfound)), ?_⟩
        rw [hmap]
        simp [hf, hty, Option.map_eq_bind]

/-- A function is read at a cursor as it is from the tokens. -/
theorem finds_function (tags : Doc.Tags) : Finds s (functionFound tags) (functionAt? tags) := by
  intro ts hts
  obtain ⟨found, hfound, hrel⟩ := Reads.function hts false
  rw [functionAt?]
  cases hf : function? false ts with
  | none =>
    rw [hf] at hrel
    cases hrel
    exact (bind_none hfound).finds
  | some q =>
    rw [hf] at hrel
    cases hrel with
    | @some p _ hpq =>
      obtain ⟨text, after⟩ := p
      have hshows : text.Shows q.1 := hpq.1
      have hreads : Reads s (functionFound tags) ts (some (⟨q.1.name, .function q.1.kind
          q.1.returnType (Param.ofTokens tags q.1.params), q.1.written⟩, after)) := by
        refine bind_some hfound (bind_some (lift (hshows.params_eq tags)) ?_)
        rw [← hshows.name_eq, ← hshows.kind_eq, ← hshows.returnType_eq, ← hshows.written_eq]
        exact Reads.pure _
      exact hreads.finds

/-- The first place where something is found is the first of the statements. -/
theorem findAt_eq {α : Type} {x : Read α} {f : List Token → Option α} (hx : Finds s x f)
    {lead rest : List Token} (h : Source.tokens s = lead ++ rest) (depth : Nat) :
    findAt x s (placed s) (startsFrom lead.length depth ((placed s).drop lead.length)) =
      .ok ((statementsFrom depth rest).findSome? f) := by
  induction rest generalizing lead depth with
  | nil =>
    have hdrop : (placed s).drop lead.length = [] := by
      apply List.drop_eq_nil_of_le
      rw [length_placed, h]
      simp
    rw [hdrop]
    rfl
  | cons t us ih =>
    have hdrop : (placed s).drop lead.length =
        placeAt lead t :: (placed s).drop (lead.length + 1) := by
      obtain ⟨hlt, hget⟩ := List.getElem?_eq_some_iff.1 (getElem?_placed h)
      rw [List.drop_eq_getElem_cons hlt, hget]
    have hnext : Source.tokens s = lead ++ [t] ++ us := by simpa using h
    have hlater := ih hnext (depthAfter depth t)
    rw [List.length_append, List.length_singleton] at hlater
    have hopens : (placeAt lead t).opensLine = t.opensLine := rfl
    rw [hdrop, startsFrom, statementsFrom]
    simp only [isPunct_placeAt h, hopens]
    rw [← depthAfter]
    split
    · obtain ⟨c, hc⟩ := hx (t :: us) ⟨lead, h.symm⟩
      rw [before_eq h] at hc
      rw [findAt, hc, ok_bind, List.findSome?_cons]
      cases f (t :: us) with
      | some a => rfl
      | none => exact hlater
    · exact hlater

end Text

/-- The declaration of a code, read by offsets, is the one that its tokens hold. -/
theorem find_eq (tags : Doc.Tags) (code : List Char) :
    find tags code = .ok (find? tags (Source.tokens code)) := by
  have hstart : Source.tokens code = [] ++ Source.tokens code := rfl
  have hfind {f : List Token → Option Found} {x : Read Found} (hx : Finds code x f) :
      findAt x code (placed code) (startsFrom 0 0 (placed code)) =
        .ok ((statements (Source.tokens code)).findSome? f) := findAt_eq hx hstart 0
  rw [find, tokenize_eq, ok_bind, ← placed, find?]
  simp only [hfind (finds_function tags), hfind finds_methodmap, hfind (finds_typedef tags), ok_bind]
  cases (statements (Source.tokens code)).findSome? (functionAt? tags) with
  | some d => rfl
  | none =>
    cases (statements (Source.tokens code)).findSome? methodmapAt? <;> rfl

/-- **The declaration of a code.** Reading a code by offsets traps nowhere and gives the
    entry for the declaration that its tokens hold. -/
theorem classify_eq (code : List Char) (comment : Doc.Comment) (file : String) :
    classify code comment file = .ok (Declaration.classify code comment file) := by
  rw [classify, find_eq, ok_bind]
  rfl

end PawnApi.Bytewise
