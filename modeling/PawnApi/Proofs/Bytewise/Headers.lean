/-
  PawnApi.Proofs.Bytewise.Headers

  Function-like declarations read by offsets.

  The readers of a type, of the keywords and of a whole declaration, each with its loops.
  They read what the functions on tokens read (`Reads.typeName`, `Reads.function`): the
  declaration as it is written is cut out from its first token through the last one that
  counts, and neither of them ends in a blank, so that nothing is trimmed from it.
-/
import PawnApi.Proofs.Bytewise.Params
import PawnApi.Proofs.TypeReaders

namespace PawnApi.Bytewise

open PawnApi.Source PawnApi.Declaration

/-! ## Types -/

/-- Adds a dimension, trimmed inside, to what has been gathered of a type. -/
def addDimension (source gathered : List Char) (span : Nat × Nat) : Checked (List Char) := do
  let text ← excerpt source span.1 span.2
  return gathered ++ ('[' :: Text.trim text ++ [']'])

/-- Reads a type: an identifier and its dimensions. -/
def typeName : Read String := do
  let c ← Read.here
  let name ← ident
  let gathered ← dimensions (addDimension c.source) name.toList
  return String.ofList gathered

/-! ## Keywords -/

/-- One turn of skipping keywords. The last of them decides the kind. -/
def keywordTurn (st : Cursor × FunctionKind) :
    Checked (Turn (Cursor × FunctionKind) (FunctionKind × Cursor)) := do
  match ← st.1.peekIdent with
  | none => return .done (st.2, st.1)
  | some w =>
    match FunctionKind.ofKeyword? w with
    | some kind => return .again (st.1.next, kind)
    | none => return if w = "static" then .again (st.1.next, st.2) else .done (st.2, st.1)

theorem next_of_keywordTurn {st st' : Cursor × FunctionKind}
    (h : keywordTurn st = .ok (.again st')) : st'.1 = st.1.next := by
  obtain ⟨found, -, h'⟩ := bind_eq_ok_iff.1 h
  split at h'
  · cases h'
  · split at h'
    · cases h'
      rfl
    · split at h' <;> cases h'
      rfl

def keywordLoop : Loop (Cursor × FunctionKind) (FunctionKind × Cursor) where
  left st := st.1.left
  body := keywordTurn
  exit st := (st.2, st.1)
  progress := by
    intro st st' hpos h
    rw [next_of_keywordTurn h]
    exact Cursor.left_lt hpos st.1.ahead_next (Nat.lt_succ_self _)

/-- Skips the keywords after the first one. -/
def keywords (kind : FunctionKind) : Read FunctionKind := fun c =>
  (keywordLoop.run (c, kind)).map fun p => (some p.1, p.2)

/-- Skips the legacy marker and its colon. -/
def marker : Read Unit := fun c =>
  c.peekIdent.map fun w =>
    (some (), if w = some "New" && (c.peekNth 1).any (·.isPunct ':') then c.next.next else c)

/-- Reads the return type and the name. Where constructors are allowed, a lone name before
    the parameter list is both. -/
def resultAndName (constructors : Bool) : Read (String × String) := do
  let c ← Read.here
  if constructors && (c.peekNth 1).any (·.isPunct '(') then
    let name ← ident
    return (name, name)
  else
    let type ← typeName
    let name ← ident
    return (type, name)

/-! ## The whole declaration -/

/-- Passes over a body. One that is never closed takes all that is left. -/
def body : Read Unit := fun c =>
  (balanced '{' '}' c).map fun
    | (some _, c') => (some (), c')
    | (none, c') => (some (), c'.atEnd)

/-- Reads how a declaration ends, and gives the offset at which what is quoted ends. -/
def ending : Read Nat := do
  let c ← Read.here
  if c.peekPunct ';' then
    let semicolon ← token
    return semicolon.stop
  else if c.peekPunct '{' then
    let last ← Read.get c.prev
    body
    return last.stop
  else Read.nothing

/-- A declaration as it is written. -/
def written (text : List Char) : String :=
  String.ofList (Text.onOneLine (Text.trim text))

/-- A function-like declaration with the text between its parentheses. -/
structure FunctionText where
  kind : FunctionKind
  returnType : String
  name : String
  params : List Char
  written : String

/-- Whether the text is that of a declaration: its parameters are those between the
    parentheses. -/
structure FunctionText.Shows (text : FunctionText) (f : Function) : Prop where
  kind_eq : text.kind = f.kind
  returnType_eq : text.returnType = f.returnType
  name_eq : text.name = f.name
  params_eq : ∀ tags, parseParams text.params tags = .ok (Param.ofTokens tags f.params)
  written_eq : text.written = f.written

/-- Reads the parameter list and the end of a declaration that starts at `start`: the text
    between the parentheses, and the declaration as it is written. -/
def signatureEnd (start : Nat) : Read (List Char × String) := do
  let (left, right) ← balanced '(' ')'
  let c ← Read.here
  let params ← Read.lift (excerpt c.source left right)
  let stop ← ending
  let text ← Read.lift (excerpt c.source start stop)
  return (params, written text)

/-- Reads what follows the first keyword of a declaration that starts at `start`. -/
def functionBehind (constructors : Bool) (start : Nat) (first : FunctionKind) :
    Read FunctionText := do
  let kind ← keywords first
  marker
  let (returnType, name) ← resultAndName constructors
  let (params, written) ← signatureEnd start
  return ⟨kind, returnType, name, params, written⟩

/-- Reads a function-like declaration. -/
def function (constructors : Bool) : Read FunctionText := do
  let c ← Read.here
  let first ← Read.get c.peek
  let found ← Read.lift c.peekIdent
  let word ← Read.get found
  let kind ← Read.get (FunctionKind.ofKeyword? word)
  let _ ← token
  functionBehind constructors first.start kind

/-! ## The readers move on -/

open Read in
theorem strict_typeName : Strict typeName :=
  forward_here.bind_strict fun _ => strict_ident.bind fun _ =>
    (forward_dimensions _ _).bind fun _ => forward_pure _

theorem forward_keywords (kind : FunctionKind) : Read.Forward (keywords kind) := by
  intro c c' k h
  cases hrun : keywordLoop.run (c, kind) with
  | error e =>
    rw [keywords, hrun] at h
    cases h
  | ok r =>
    rw [keywords, hrun] at h
    cases h
    refine Loop.run_induction (l := keywordLoop) (P := fun st => c.Ahead st.1)
      (Q := fun r => c.Ahead r.2) (.refl c) ?_ ?_ ?_ hrun
    · intro st st' _ hst hturn
      rw [next_of_keywordTurn hturn]
      exact hst.trans st.1.ahead_next
    · intro st r _ hst hturn
      obtain ⟨found, -, hturn'⟩ := bind_eq_ok_iff.1 hturn
      split at hturn'
      · cases hturn'
        exact hst
      · split at hturn'
        · cases hturn'
        · split at hturn' <;> cases hturn'
          exact hst
    · intro st _ hst
      exact hst

theorem forward_marker : Read.Forward marker := by
  intro c c' u h
  unfold marker at h
  cases hp : c.peekIdent with
  | error e =>
    rw [hp] at h
    cases h
  | ok w =>
    rw [hp] at h
    simp only [Except.map, Except.ok.injEq, Prod.mk.injEq] at h
    rw [← h.2]
    split
    · exact c.ahead_next.trans c.next.ahead_next
    · exact .refl c

open Read in
theorem forward_resultAndName (constructors : Bool) : Forward (resultAndName constructors) := by
  refine forward_here.bind fun c => ?_
  split
  · exact strict_ident.forward.bind fun _ => forward_pure _
  · exact strict_typeName.forward.bind fun _ => strict_ident.forward.bind fun _ => forward_pure _

theorem forward_body : Read.Forward body := by
  intro c c' u h
  unfold body at h
  cases hb : balanced '{' '}' c with
  | error e =>
    rw [hb] at h
    cases h
  | ok r =>
    obtain ⟨found, c₁⟩ := r
    rw [hb] at h
    cases found with
    | some span =>
      cases h
      exact (strict_balanced _ _ hb).1
    | none =>
      cases h
      rcases of_balanced hb with ⟨-, rfl⟩ | ⟨hahead, -⟩
      · exact c₁.ahead_atEnd
      · exact hahead.trans c₁.ahead_atEnd

open Read in
theorem forward_ending : Forward ending := by
  refine forward_here.bind fun c => ?_
  split
  · exact strict_token.forward.bind fun _ => forward_pure _
  split
  · exact (forward_get _).bind fun _ => forward_body.bind fun _ => forward_pure _
  · exact forward_nothing

open Read in
theorem forward_signatureEnd (start : Nat) : Forward (signatureEnd start) :=
  (strict_balanced _ _).forward.bind fun _ => forward_here.bind fun _ =>
    (forward_lift _).bind fun _ => forward_ending.bind fun _ => (forward_lift _).bind fun _ =>
      forward_pure _

open Read in
/-- A declaration takes up at least its first keyword. -/
theorem strict_function (constructors : Bool) : Strict (function constructors) :=
  forward_here.bind_strict fun _ => (forward_get _).bind_strict fun _ =>
    (forward_lift _).bind_strict fun _ => (forward_get _).bind_strict fun _ =>
      (forward_get _).bind_strict fun _ => strict_token.bind fun _ =>
        (forward_keywords _).bind fun _ => forward_marker.bind fun _ =>
          (forward_resultAndName _).bind fun _ => (forward_signatureEnd _).bind fun _ =>
            forward_pure _

/-! ## What the readers find -/

namespace Reads

open Cursor

variable {s : List Char} {t : Token} {ts : List Token}

theorem typeName (hts : ts <:+ Source.tokens s) : Reads s typeName ts (typeName? ts) := by
  refine bind_some here ?_
  cases ts with
  | nil => exact bind_none (Reads.ident hts)
  | cons t us =>
    refine bind_ident hts fun w hw => ?_
    have htext : w.toList = t.text := by
      rw [(Param.ident?_eq_some_iff.1 hw).2, String.toList_ofList]
    have hdims : Reads s (Bytewise.dimensions (addDimension s) t.text) us
        ((dimensions? us).map fun p => (p.1.foldl (fun gathered g =>
          gathered ++ ('[' :: Text.trim g.text ++ [']'])) t.text, p.2)) := by
      refine Reads.dimensions (fun gathered start stop g hcut => ?_)
        ((List.suffix_cons t us).trans hts) t.text
      rw [addDimension, hcut]
      rfl
    have hmap := hdims.map String.ofList
    simp only [List.foldl_append_eq_append] at hmap
    rw [Option.map_map, Option.map_eq_bind] at hmap
    rw [htext]
    exact hmap

/-- The keywords are skipped at a cursor as they are in the tokens. -/
theorem run_keywordLoop (hts : ts <:+ Source.tokens s) (kind : FunctionKind) :
    keywordLoop.run (before s ts, kind) =
      .ok ((skipKeywords kind ts).1, before s (skipKeywords kind ts).2) := by
  induction ts generalizing kind with
  | nil =>
    rw [Loop.run_of_left_eq_zero (show (before s []).left = 0 from left_before hts)]
    rfl
  | cons t us ih =>
    have hus : us <:+ Source.tokens s := (List.suffix_cons t us).trans hts
    have hpos : 0 < keywordLoop.left (before s (t :: us), kind) := left_before_pos hts
    have hturn : keywordLoop.body (before s (t :: us), kind) = .ok (match kind? t with
        | some k => .again (before s us, k)
        | none => if t.isWord "static" then .again (before s us, kind)
            else .done (kind, before s (t :: us))) := by
      change keywordTurn (before s (t :: us), kind) = _
      simp only [keywordTurn, peekIdent_before hts, List.head?_cons, Option.bind_some, ok_bind,
        next_before hts, kind?, isWord_eq_decide]
      cases t.ident? with
      | none => rfl
      | some w =>
        simp only [Option.bind_some, Option.some.injEq, decide_eq_true_eq]
        cases FunctionKind.ofKeyword? w <;> rfl
    rw [skipKeywords]
    cases hk : kind? t with
    | some k =>
      rw [hk] at hturn
      rw [Loop.run_of_again hpos hturn]
      exact ih hus k
    | none =>
      rw [hk] at hturn
      cases hw : t.isWord "static" with
      | true =>
        rw [hw] at hturn
        rw [Loop.run_of_again hpos hturn]
        exact ih hus kind
      | false =>
        rw [hw] at hturn
        exact Loop.run_of_done hpos hturn

theorem keywords (hts : ts <:+ Source.tokens s) (kind : FunctionKind) :
    Reads s (keywords kind) ts (some (skipKeywords kind ts)) := by
  apply of_some
  rw [Bytewise.keywords, run_keywordLoop hts]
  rfl

theorem marker (hts : ts <:+ Source.tokens s) :
    Reads s marker ts (some ((), skipMarker ts)) := by
  apply of_some
  rw [Bytewise.marker, peekIdent_before hts, peekNth_one]
  cases ts with
  | nil => rfl
  | cons t us =>
    have hus : us <:+ Source.tokens s := (List.suffix_cons t us).trans hts
    rw [next_before hts]
    cases us with
    | nil => simp [skipMarker, Except.map]
    | cons u us =>
      have hpunct := peekPunct_before hus ':'
      rw [peekPunct, List.head?_cons, Option.any_some] at hpunct
      rw [hpunct, next_before hus, skipMarker, isWord_eq_decide]
      simp only [List.head?_cons, Option.bind_some, Except.map]
      by_cases hnew : t.ident? = some "New"
      · cases u.isPunct ':' <;> simp [hnew]
      · simp [hnew]

theorem resultAndName (hts : ts <:+ Source.tokens s) (constructors : Bool) :
    Reads s (resultAndName constructors) ts
      ((resultAndName? constructors ts).map fun r => ((r.1, r.2.1), r.2.2)) := by
  refine bind_some here ?_
  have hcall : ((before s ts).peekNth 1).any (·.isPunct '(') = callFollows ts := by
    rw [peekNth_one]
    cases ts with
    | nil => simp [callFollows, next, before, peek]
    | cons t us =>
      have hus : us <:+ Source.tokens s := (List.suffix_cons t us).trans hts
      rw [next_before hts]
      refine (peekPunct_before hus '(').trans ?_
      cases us <;> rfl
  rw [hcall, resultAndName?]
  split
  · rw [Option.bind_eq_bind, Option.map_bind]
    exact (Reads.ident hts).bind fun name rest _ => Reads.pure (name, name)
  · rw [Option.bind_eq_bind, Option.map_bind]
    refine (Reads.typeName hts).bind fun type rest htype => ?_
    simp only [Function.comp_apply, Option.map_bind]
    exact (Reads.ident ((suffix_of_typeName? htype).trans hts)).bind fun name rest _ =>
      Reads.pure (type, name)

theorem body_of_some {g : Group} (hts : ts <:+ Source.tokens s) (h : group? '{' '}' ts = some g) :
    Reads s body ts (some ((), g.rest)) := by
  obtain ⟨start, stop, hspan, -⟩ := balanced_before_of_some hts h
  apply of_some
  rw [body, hspan]
  rfl

theorem body_of_none (hts : ts <:+ Source.tokens s) (h : group? '{' '}' ts = none) :
    Reads s body ts (some ((), [])) := by
  apply of_some
  rw [body, balanced_before_of_none hts h]
  exact congrArg (fun c => Except.ok (some (), c)) (atEnd_before s ts)

/-- What is quoted ends where the tokens before the unquoted ones end. -/
theorem ending {u : Token} {lead : List Token} (h : Source.tokens s = lead ++ u :: ts) :
    Reads s ending ts ((ending? ts).map fun e => (endBefore s e.1, e.2)) := by
  have hts : ts <:+ Source.tokens s := ⟨lead ++ [u], by simpa using h.symm⟩
  refine bind_some here ?_
  rw [peekPunct_before hts, peekPunct_before hts]
  cases ts with
  | nil => exact Reads.nothing
  | cons t us =>
    have ht : Source.tokens s = lead ++ [u] ++ t :: us := by simpa using h
    rw [List.head?_cons, Option.any_some, Option.any_some, ending?]
    split
    · have hend : Source.tokens s = lead ++ [u] ++ [t] ++ us := by simpa using h
      rw [Option.map_some, endBefore_eq hend, ← stop_placeAt]
      exact bind_some (Reads.token ht) (Reads.pure _)
    split
    · rename_i hbrace
      have hend : Source.tokens s = lead ++ [u] ++ (t :: us) := by simpa using h
      have hgroup : group? '{' '}' (t :: us) = closeGroup? '{' '}' 0 us := by
        rw [group?, if_pos hbrace]
      rw [prev_before h]
      refine bind_some (get_some _) ?_
      -- with or without its end, a body is not quoted
      cases hg : closeGroup? '{' '}' 0 us with
      | some g =>
        rw [Option.map_some, endBefore_eq hend, ← stop_placeAt]
        exact bind_some (body_of_some hts (hgroup.trans hg)) (Reads.pure _)
      | none =>
        rw [Option.map_some, endBefore_eq hend, ← stop_placeAt]
        exact bind_some (body_of_none hts (hgroup.trans hg)) (Reads.pure _)
    · exact Reads.nothing

end Reads

/-! ## The declaration as it is written -/

/-- A token without blanks. -/
structure Solid (t : Token) : Prop where
  ne_nil : t.text ≠ []
  isBlank : ∀ c ∈ t.text, Text.isBlank c = false

theorem Solid.of_isPunct {t : Token} {c : Char} (h : t.isPunct c = true)
    (hc : Text.isBlank c = false) : Solid t := by
  have htext := text_of_isPunct h
  refine ⟨by simp [htext], fun e he => ?_⟩
  rw [htext, List.mem_singleton] at he
  rw [he, hc]

theorem Solid.of_ident {s : List Char} {lead rest : List Token} {t : Token}
    (h : Source.tokens s = lead ++ t :: rest) (ht : t.kind = .ident) : Solid t :=
  ⟨((Lexed.lossless_iff.2 rfl).fits lead t rest h).form.ne_nil, isBlank_of_mem_ident h ht⟩

/-- Nothing is trimmed from a text that starts and ends with tokens without blanks. -/
theorem trim_span {front : List Token} {t u : Token} (ht : Solid t) (hu : Solid u)
    (h : (front ++ [u]).head? = some t) :
    Text.trim (Token.span (front ++ [u])) = Token.span (front ++ [u]) := by
  rw [Text.trim_eq_self_iff]
  constructor
  · intro c hc
    obtain ⟨rest, hrest⟩ : ∃ rest, Token.span (front ++ [u]) = t.text ++ rest := by
      cases front with
      | nil =>
        cases h
        exact ⟨[], by simp [Token.span]⟩
      | cons v front =>
        cases h
        exact ⟨Token.render (front ++ [u]), rfl⟩
    rw [hrest] at hc
    refine ht.isBlank c ?_
    cases htext : t.text with
    | nil => exact absurd htext ht.ne_nil
    | cons e w =>
      rw [htext] at hc
      cases hc
      exact List.mem_cons_self
  · intro c hc
    obtain ⟨lead, hlead⟩ : ∃ lead, Token.span (front ++ [u]) = lead ++ u.text := by
      cases front with
      | nil => exact ⟨[], by simp [Token.span]⟩
      | cons v front => exact ⟨v.text ++ Token.render front ++ u.gap, by simp [Token.span]⟩
    rw [hlead, List.getLast?_append_of_ne_nil _ hu.ne_nil] at hc
    exact hu.isBlank c (List.mem_of_getLast? hc)

/-- What is cut out from the first token of a declaration through its last one is what is
    quoted. -/
theorem excerpt_quote {s : List Char} {lead us front rest : List Token} {t u : Token}
    (h : Source.tokens s = lead ++ t :: us) (ht : t.kind = .ident)
    (hu : t :: us = front ++ u :: rest) (hsolid : Solid u) :
    ∃ text, excerpt s (placeAt lead t).start (endBefore s rest) = .ok text ∧
      written text = quote (t :: us) rest := by
  have hrest : rest <:+ us := by
    cases front with
    | nil =>
      cases hu
      exact List.suffix_refl _
    | cons v front =>
      cases hu
      exact ⟨front ++ [u], by simp⟩
  have htake : (t :: us).take ((t :: us).length - rest.length) = front ++ [u] := by
    have hsplit : t :: us = front ++ [u] ++ rest := by simpa using hu
    rw [hsplit, List.length_append, Nat.add_sub_cancel, List.take_left]
  have hhead : (front ++ [u]).head? = some t := by
    cases front <;> cases hu <;> rfl
  refine ⟨_, excerpt_span h hrest, ?_⟩
  rw [written, quote, htake, trim_span (Solid.of_ident h ht) hsolid hhead]

/-- What is not quoted of a declaration stands behind the semicolon, or behind the closing
    parenthesis if there is a body. -/
theorem exists_last_quoted {ts unquoted after : List Token} {g : Group}
    (hg : group? '(' ')' ts = some g) (he : ending? g.rest = some (unquoted, after)) :
    ∃ front u, ts = front ++ u :: unquoted ∧ Solid u := by
  obtain ⟨b, hts, -⟩ := (group?_eq_some_iff (by decide)).1 hg
  cases hrest : g.rest with
  | nil => simp [hrest, ending?] at he
  | cons t us =>
    rw [hrest, ending?] at he
    split at he
    · rename_i hsemi
      cases he
      exact ⟨b.tokens, t, by rw [hts, hrest], .of_isPunct hsemi (by decide)⟩
    split at he
    · have hunquoted : unquoted = t :: us := by
        split at he <;> cases he <;> rfl
      refine ⟨b.opener :: b.inside, b.closer, ?_, .of_isPunct b.isPunct_closer (by decide)⟩
      rw [hts, hrest, hunquoted, Bracketed.tokens]
      simp
    · cases he

namespace Reads

open Cursor

variable {s : List Char}

/-- The parameter list and the end of a declaration are read as they are from the tokens. -/
theorem signatureEnd {lead us behind : List Token} {t : Token}
    (h : Source.tokens s = lead ++ t :: us) (ht : t.kind = .ident) (hbehind : behind <:+ us) :
    ∃ found, Reads s (signatureEnd (placeAt lead t).start) behind found ∧
      Option.Rel (fun p q => (∀ tags, parseParams p.1.1 tags = .ok (Param.ofTokens tags q.1.1)) ∧
          p.1.2 = q.1.2 ∧ p.2 = q.2) found
        ((group? '(' ')' behind).bind fun g => (ending? g.rest).map fun e =>
          ((g.inside, quote (t :: us) e.1), e.2)) := by
  have hbehind' : behind <:+ Source.tokens s :=
    hbehind.trans ⟨lead ++ [t], by simpa using h.symm⟩
  cases hg : group? '(' ')' behind with
  | none =>
    exact ⟨none, bind_none (of_none (balanced_before_of_none hbehind' hg)), .none⟩
  | some g =>
    obtain ⟨left, right, hspan, htext⟩ := balanced_before_of_some hbehind' hg
    obtain ⟨b, hb, -⟩ := (group?_eq_some_iff (by decide)).1 hg
    have hend : Reads s Bytewise.ending g.rest
        ((ending? g.rest).map fun e => (endBefore s e.1, e.2)) := by
      obtain ⟨front, hfront⟩ := hbehind'
      have hcloser : Source.tokens s = front ++ b.opener :: b.inside ++ b.closer :: g.rest := by
        rw [← hfront, hb, Bracketed.tokens]
        simp
      exact Reads.ending hcloser
    cases he : ending? g.rest with
    | none =>
      rw [he] at hend
      refine ⟨none, bind_some (of_some hspan) (bind_some here (bind_some (lift htext)
        (bind_none hend))), ?_⟩
      rw [Option.bind_some, he]
      exact .none
    | some e =>
      obtain ⟨unquoted, after⟩ := e
      rw [he] at hend
      -- what is quoted ends with a token without blanks, so that trimming takes nothing away
      obtain ⟨front, u, hu, hsolid⟩ := exists_last_quoted hg he
      obtain ⟨mid, hmid⟩ := hbehind
      have hquoted : t :: us = t :: mid ++ front ++ u :: unquoted := by
        rw [← hmid, hu]
        simp
      obtain ⟨text, hcut, hwritten⟩ := excerpt_quote h ht hquoted hsolid
      refine ⟨some ((g.text, Bytewise.written text), after),
        bind_some (of_some hspan) (bind_some here (bind_some (lift htext)
          (bind_some hend (bind_some (lift hcut) (Reads.pure _))))), ?_⟩
      rw [Option.bind_some, he, Option.map_some]
      exact .some ⟨fun tags => parseParams_groupText hbehind' hg tags, hwritten, rfl⟩

/-- What follows the first keyword is read as it is from the tokens. -/
theorem functionBehind {lead us : List Token} {t : Token} (h : Source.tokens s = lead ++ t :: us)
    (ht : t.kind = .ident) (constructors : Bool) (first : FunctionKind) :
    ∃ found, Reads s (functionBehind constructors (placeAt lead t).start first) us found ∧
      Option.Rel (fun p q => p.1.Shows q.1 ∧ p.2 = q.2) found
        ((resultAndName? constructors (skipMarker (skipKeywords first us).2)).bind fun r =>
          (group? '(' ')' r.2.2).bind fun g => (ending? g.rest).map fun e =>
            ((⟨(skipKeywords first us).1, r.1, r.2.1, g.inside, quote (t :: us) e.1⟩ : Function),
              e.2)) := by
  have hus : us <:+ Source.tokens s := ⟨lead ++ [t], by simpa using h.symm⟩
  have hrest : (skipKeywords first us).2 <:+ us := suffix_skipKeywords first us
  have hmarked : skipMarker (skipKeywords first us).2 <:+ us := (suffix_skipMarker _).trans hrest
  have hkeywords := Reads.keywords hus first
  have hmarker := Reads.marker (hrest.trans hus)
  have hresult := Reads.resultAndName (hmarked.trans hus) constructors
  cases hr : resultAndName? constructors (skipMarker (skipKeywords first us).2) with
  | none =>
    rw [hr] at hresult
    exact ⟨none, bind_some hkeywords (bind_some hmarker (bind_none hresult)), .none⟩
  | some r =>
    rw [hr] at hresult
    have hbehind : r.2.2 <:+ us := (suffix_of_resultAndName? hr).trans hmarked
    obtain ⟨found, hfound, hrel⟩ := Reads.signatureEnd h ht hbehind
    -- the rest of the declaration, as `signatureEnd` gives it
    have hmap : ((group? '(' ')' r.2.2).bind fun g => (ending? g.rest).map fun e =>
          ((⟨(skipKeywords first us).1, r.1, r.2.1, g.inside, quote (t :: us) e.1⟩ : Function),
            e.2)) =
        ((group? '(' ')' r.2.2).bind fun g => (ending? g.rest).map fun e =>
          ((g.inside, quote (t :: us) e.1), e.2)).map fun p =>
            (⟨(skipKeywords first us).1, r.1, r.2.1, p.1.1, p.1.2⟩, p.2) := by
      simp only [Option.map_bind, Option.map_map, Function.comp_def]
    rw [Option.bind_some, hmap]
    generalize ((group? '(' ')' r.2.2).bind fun g => (ending? g.rest).map fun e =>
      ((g.inside, quote (t :: us) e.1), e.2)) = signature at hrel
    cases hrel with
    | none =>
      exact ⟨none, bind_some hkeywords (bind_some hmarker (bind_some hresult
        (bind_none hfound))), .none⟩
    | some hpq =>
      exact ⟨_, bind_some hkeywords (bind_some hmarker (bind_some hresult
        (bind_some hfound (Reads.pure _)))), .some ⟨⟨rfl, rfl, rfl, hpq.1, hpq.2.1⟩, hpq.2.2⟩⟩

/-- A declaration is read at a cursor as it is from the tokens. -/
theorem function {ts : List Token} (hts : ts <:+ Source.tokens s) (constructors : Bool) :
    ∃ found, Reads s (function constructors) ts found ∧
      Option.Rel (fun p q => p.1.Shows q.1 ∧ p.2 = q.2) found (function? constructors ts) := by
  cases ts with
  | nil =>
    refine ⟨none, bind_some here ?_, .none⟩
    rw [peek_before_nil]
    exact bind_none get_none
  | cons t us =>
    have hident : Reads s (Read.lift (before s (t :: us)).peekIdent) (t :: us)
        (some (t.ident?, t :: us)) := lift (peekIdent_before hts)
    obtain ⟨lead, hlead⟩ := hts
    have hfunction : function? constructors (t :: us) = (kind? t).bind fun first =>
        (resultAndName? constructors (skipMarker (skipKeywords first us).2)).bind fun r =>
          (group? '(' ')' r.2.2).bind fun g => (ending? g.rest).map fun e =>
            (⟨(skipKeywords first us).1, r.1, r.2.1, g.inside, quote (t :: us) e.1⟩, e.2) := by
      simp only [function?, Option.bind_eq_bind, Option.pure_def, Option.map_eq_bind]
      rfl
    rw [hfunction, kind?]
    have hstart := peek_before hlead.symm
    cases hw : t.ident? with
    | none =>
      refine ⟨none, bind_some here ?_, .none⟩
      rw [hw] at hident
      rw [hstart]
      exact bind_some (get_some _) (bind_some hident (bind_none get_none))
    | some w =>
      rw [hw] at hident
      rw [Option.bind_some]
      cases hk : FunctionKind.ofKeyword? w with
      | none =>
        -- an identifier that is no keyword
        refine ⟨none, bind_some here ?_, .none⟩
        rw [hstart]
        refine bind_some (get_some _) (bind_some hident (bind_some (get_some w) ?_))
        rw [hk]
        exact bind_none get_none
      | some first =>
        have ht : t.kind = .ident := (Param.ident?_eq_some_iff.1 hw).1
        obtain ⟨found, hfound, hrel⟩ := functionBehind hlead.symm ht constructors first
        refine ⟨found, bind_some here ?_, hrel⟩
        rw [hstart]
        refine bind_some (get_some _) (bind_some hident (bind_some (get_some w) ?_))
        rw [hk]
        exact bind_some (get_some first) (bind_some (Reads.token hlead.symm) hfound)

end Reads

end PawnApi.Bytewise
