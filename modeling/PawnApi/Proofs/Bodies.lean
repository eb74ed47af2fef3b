/-
  PawnApi.Proofs.Bodies

  What stands between a pair of braces.

  A text between braces that is balanced and ends outside comments and literals is not
  looked into: whatever it holds, the entries of the whole text are the same, but for the
  members of methodmaps (`parse_body`). The outline passes over the body, no declaration
  may start in it, and every reader of a header stops at its opening brace.
-/
import PawnApi.Include
import PawnApi.Proofs.Blocks
import PawnApi.Proofs.Frames
import PawnApi.Proofs.LineEndings
import PawnApi.Proofs.Trimming

namespace PawnApi

/-- A shape without the members of a methodmap. -/
def Shape.withoutMembers : Shape → Shape
  | .methodmap inherits _ _ => .methodmap inherits [] []
  | s => s

/-- An entry without the members of a methodmap. -/
def Entry.withoutMembers (e : Entry) : Entry :=
  { e with shape := e.shape.withoutMembers }

/-- A declaration without the members of a methodmap. -/
def Declaration.Found.withoutMembers (f : Found) : Found :=
  { f with shape := f.shape.withoutMembers }

end PawnApi

namespace PawnApi.Declaration

open PawnApi.Source

/-! ## Where declarations may start around a body -/

theorem statementsFrom_append (d : Nat) (us vs : List Token) :
    statementsFrom d (us ++ vs)
      = (statementsFrom d us).map (· ++ vs) ++ statementsFrom (us.foldl depthAfter d) vs := by
  induction us generalizing d with
  | nil => rfl
  | cons t us ih =>
    rw [List.cons_append, statementsFrom, statementsFrom, ih]
    split <;> rfl

/-- Balanced brace tokens count as the saturating count does. -/
theorem foldl_of_level? {d e : Nat} {ts : List Token} (h : level? '{' '}' d ts = some e) :
    ts.foldl depthAfter d = e := by
  induction ts generalizing d with
  | nil => simpa [level?] using h
  | cons t ts ih =>
    rw [level?] at h
    rw [List.foldl_cons, depthAfter]
    split at h
    · rw [if_pos ‹_›]
      exact ih h
    rw [if_neg ‹_›]
    split at h
    · rw [if_pos ‹_›]
      split at h
      · simp at h
      · exact ih h
    · rw [if_neg ‹_›]
      exact ih h

/-- No declaration starts among balanced tokens inside braces. -/
theorem statementsFrom_of_level? {d e : Nat} {ts : List Token}
    (h : level? '{' '}' d ts = some e) : statementsFrom (d + 1) ts = [] := by
  induction ts generalizing d with
  | nil => rfl
  | cons t ts ih =>
    rw [level?] at h
    rw [statementsFrom, if_neg (by simp), depthAfter]
    split at h
    · rw [if_pos ‹_›]
      exact ih h
    rw [if_neg ‹_›]
    split at h
    · rw [if_pos ‹_›]
      split at h
      · simp at h
      · have hd : d + 1 - 1 = (d - 1) + 1 := by omega
        rw [hd]
        exact ih h
    · rw [if_neg ‹_›]
      exact ih h

section Body

variable {us bs vs : List Token} {o c : Token}

/-- The first answer over the places of a code with a body: one from before the body, if
    there is any, and else one from behind it. -/
theorem findSome?_statements {α : Type} {f g : List Token → Option α}
    (hu : us.foldl depthAfter 0 = 0) (ho : o.isPunct '{' = true) (hc : c.isPunct '}' = true)
    (hb : Balanced '{' '}' bs) (hf : ∀ x, f (o :: x) = none)
    (hg : ∀ w ∈ statements us, ∀ x, f (w ++ o :: x) = g w) :
    (statements (us ++ o :: (bs ++ c :: vs))).findSome? f
      = ((statements us).findSome? g).or ((statementsFrom 0 vs).findSome? f) := by
  have hopen : depthAfter 0 o = 1 := by simp [depthAfter, ho]
  have hclose : depthAfter 1 c = 0 := by simp [depthAfter, Token.isPunct_of_ne hc, hc]
  have hinside : statementsFrom 1 (bs ++ c :: vs) = statementsFrom 0 vs := by
    rw [statementsFrom_append, statementsFrom_of_level? hb, foldl_of_level? (level?_add hb 1),
      statementsFrom, if_neg (by simp)]
    simp [hclose]
  have hbrace : (statementsFrom 0 (o :: (bs ++ c :: vs))).findSome? f
      = (statementsFrom 0 vs).findSome? f := by
    rw [statementsFrom, hopen, hinside]
    split
    · rw [List.findSome?_cons, hf]
    · rfl
  have hfront : ((statements us).map (· ++ o :: (bs ++ c :: vs))).findSome? f
      = (statements us).findSome? g := by
    have hmap : (statements us).map (f ∘ (· ++ o :: (bs ++ c :: vs))) = (statements us).map g :=
      List.map_congr_left fun w hw => hg w hw _
    have hid := congrArg (List.findSome? id) hmap
    rwa [List.findSome?_map, List.findSome?_map, Function.id_comp, Function.id_comp,
      ← List.findSome?_map] at hid
  rw [statements, statementsFrom_append, hu, List.findSome?_append, hbrace]
  exact congrArg (Option.or · _) hfront

end Body

/-! ## The three shapes before a body -/

/-- The function whose header the tokens are, if an opening brace follows them. -/
def headed? (constructors : Bool) (ts : List Token) : Option Function :=
  match ts with
  | [] => none
  | t :: us => do
    let first ← kind? t
    let (kind, rest) := skipKeywords first us
    let (returnType, name, rest) ← resultAndName? constructors (skipMarker rest)
    let g ← group? '(' ')' rest
    let unquoted ← unquoted? g.rest
    return ⟨kind, returnType, name, g.inside, quote ts unquoted⟩

theorem headed?_eq_bind (constructors : Bool) (ts : List Token) :
    headed? constructors ts = (callHead? constructors ts).bind fun h =>
      (unquoted? h.rest).map (h.function ts) := by
  cases ts with
  | nil => rfl
  | cons t us =>
    rw [headed?, callHead?]
    cases kind? t with
    | none => rfl
    | some first =>
      simp only [Option.bind_eq_bind, Option.bind_some]
      cases resultAndName? constructors (skipMarker (skipKeywords first us).2) with
      | none => rfl
      | some r =>
        simp only [Option.bind_some]
        cases group? '(' ')' r.2.2 with
        | none => rfl
        | some g =>
          simp only [Option.bind_some, Option.pure_def]
          cases unquoted? g.rest <;> rfl

section Header

variable {o : Token} {w : List Token}

/-- A function that starts before a brace does not depend on what the brace opens. -/
theorem function?_frame (ho : o.isPunct '{' = true) (hs : GroupsClosed '[' ']' w)
    (hp : GroupsClosed '(' ')' w) (constructors : Bool) (x : List Token) :
    (function? constructors (w ++ o :: x)).map Prod.fst = headed? constructors w := by
  rw [function?_eq_bind, headed?_eq_bind, callHead?_frame ho x constructors hs hp]
  cases callHead? constructors w with
  | none => rfl
  | some h =>
    have he := ending?_frame ho x h.rest
    simp only [Option.map_some, Option.bind_some, CallHead.frame, Option.map_map]
    -- both endings are there or neither is, and the quoted text ends before the brace
    cases hq : ending? (h.rest ++ o :: x) with
    | none =>
      rw [hq] at he
      have hu : unquoted? h.rest = none := by simpa using he.symm
      rw [hu]
      rfl
    | some e =>
      rw [hq] at he
      obtain ⟨unquoted, hu, he⟩ := Option.map_eq_some_iff.1 he.symm
      rw [hu]
      simp only [Option.map_some, Function.comp_apply, CallHead.function, ← he, quote_append]

theorem typedefAt?_frame (ho : o.isPunct '{' = true) (hs : GroupsClosed '[' ']' w)
    (hp : GroupsClosed '(' ')' w) (tags : Doc.Tags) (x : List Token) :
    typedefAt? tags (w ++ o :: x) = typedefAt? tags w := by
  cases w with
  | nil => exact typedefAt?_of_isWord_eq_false (Token.isWord_of_isPunct ho _) tags x
  | cons t w =>
    cases hk : t.isWord "typedef" with
    | false =>
      rw [List.cons_append, typedefAt?_of_isWord_eq_false hk, typedefAt?_of_isWord_eq_false hk]
    | true =>
      rw [List.cons_append, typedefAt?, typedefAt?, guard_of_eq_true hk]
      simp only [Option.bind_eq_bind, Option.bind_some, ident?_frame ho]
      cases hi : ident? w with
      | none => rfl
      | some i =>
        simp only [Option.map_some, Option.bind_some, functionTypeFollows?_frame ho]
        cases hf : functionTypeFollows? i.2 with
        | none => rfl
        | some f =>
          have hfw : f <:+ w := (suffix_of_functionTypeFollows? hf).trans (suffix_of_ident? hi)
          simp only [Option.map_some, Option.bind_some,
            typeName?_frame ho x (hs.tail.of_suffix hfw)]
          cases hr : typeName? f with
          | none => rfl
          | some r =>
            have hrw : r.2 <:+ w := (suffix_of_typeName? hr).trans hfw
            simp only [Option.map_some, Option.bind_some,
              group?_frame ho x (hp.tail.of_suffix hrw)]
            cases group? '(' ')' r.2 with
            | none => rfl
            | some g =>
              simp only [Option.map_some, Option.bind_some, Group.rest_frame, Group.inside_frame,
                afterSemicolon?_frame ho]
              cases afterSemicolon? g.rest with
              | none => rfl
              | some after =>
                simp only [Option.map_some, Option.bind_some]
                rw [← List.cons_append, quote_append]

/-- A methodmap's header does not depend on its body. -/
theorem methodmapAt?_frame (ho : o.isPunct '{' = true) (x : List Token) :
    (methodmapAt? (w ++ o :: x)).map Found.withoutMembers
      = (methodmapAt? w).map Found.withoutMembers := by
  cases w with
  | nil =>
    rw [List.nil_append, methodmapAt?_of_isWord_eq_false (Token.isWord_of_isPunct ho _)]
    rfl
  | cons t w =>
    cases hk : t.isWord "methodmap" with
    | false =>
      rw [List.cons_append, methodmapAt?_of_isWord_eq_false hk, methodmapAt?_of_isWord_eq_false hk]
    | true =>
      rw [List.cons_append, methodmapAt?, methodmapAt?, guard_of_eq_true hk]
      simp only [Option.bind_eq_bind, Option.bind_some, ident?_frame ho, Option.map_bind]
      cases ident? w with
      | none => rfl
      | some i =>
        simp only [Function.comp_apply, Option.map_some, Option.bind_some, parent?_frame ho]
        cases parent? i.2 with
        | none => rfl
        | some p =>
          simp only [Option.map_some, Option.bind_some, Option.pure_def, Found.withoutMembers,
            Shape.withoutMembers]
          rw [← List.cons_append, quote_append]

end Header

/-! ## The declaration of a code with a body -/

/-- A function as the declaration that was found. -/
def Function.toFound (tags : Doc.Tags) (f : Function) : Found :=
  ⟨f.name, .function f.kind f.returnType (Param.ofTokens tags f.params), f.written⟩

theorem functionAt?_eq (tags : Doc.Tags) (ts : List Token) :
    functionAt? tags ts = ((function? false ts).map Prod.fst).map (Function.toFound tags) := by
  unfold functionAt?
  cases function? false ts <;> rfl

theorem map_find? {α : Type} (f : Found → α) (tags : Doc.Tags) (ts : List Token) :
    (find? tags ts).map f
      = ((statements ts).findSome? fun w => (functionAt? tags w).map f).or
        (((statements ts).findSome? fun w => (methodmapAt? w).map f).or
          ((statements ts).findSome? fun w => (typedefAt? tags w).map f)) := by
  unfold find?
  simp only [Option.map_or, List.map_findSome?]
  rfl

/-- What a code declares does not depend on a body in it, but for a methodmap's members. -/
theorem find?_body {us bs bs' vs : List Token} {o c c' : Token} (tags : Doc.Tags)
    (hu : us.foldl depthAfter 0 = 0) (hs : GroupsClosed '[' ']' us) (hp : GroupsClosed '(' ')' us)
    (ho : o.isPunct '{' = true) (hc : c.isPunct '}' = true) (hc' : c'.isPunct '}' = true)
    (hb : Balanced '{' '}' bs) (hb' : Balanced '{' '}' bs') :
    (find? tags (us ++ o :: (bs ++ c :: vs))).map Found.withoutMembers
      = (find? tags (us ++ o :: (bs' ++ c' :: vs))).map Found.withoutMembers := by
  have hsuffix : ∀ w ∈ statements us, w <:+ us := by
    intro w hw
    obtain ⟨lead, rfl, -⟩ := exists_append_of_mem_statementsFrom hw
    exact List.suffix_append lead w
  have hfunction : ∀ x, functionAt? tags (o :: x) = none :=
    functionAt?_of_kind?_eq_none (kind?_of_isPunct ho) tags
  have hmethodmap : ∀ x, methodmapAt? (o :: x) = none :=
    methodmapAt?_of_isWord_eq_false (Token.isWord_of_isPunct ho _)
  have htypedef : ∀ x, typedefAt? tags (o :: x) = none :=
    typedefAt?_of_isWord_eq_false (Token.isWord_of_isPunct ho _) tags
  have hf : ∀ w ∈ statements us, ∀ x,
      (functionAt? tags (w ++ o :: x)).map Found.withoutMembers
        = ((headed? false w).map (Function.toFound tags)).map Found.withoutMembers := by
    intro w hw x
    rw [functionAt?_eq, function?_frame ho (hs.of_suffix (hsuffix w hw))
      (hp.of_suffix (hsuffix w hw))]
  have ht : ∀ w ∈ statements us, ∀ x,
      (typedefAt? tags (w ++ o :: x)).map Found.withoutMembers
        = (typedefAt? tags w).map Found.withoutMembers := by
    intro w hw x
    rw [typedefAt?_frame ho (hs.of_suffix (hsuffix w hw)) (hp.of_suffix (hsuffix w hw))]
  rw [map_find?, map_find?,
    findSome?_statements hu ho hc hb (fun x => by rw [hfunction]; rfl) hf,
    findSome?_statements hu ho hc' hb' (fun x => by rw [hfunction]; rfl) hf,
    findSome?_statements hu ho hc hb (fun x => by rw [hmethodmap]; rfl)
      (fun w _ x => methodmapAt?_frame ho x),
    findSome?_statements hu ho hc' hb' (fun x => by rw [hmethodmap]; rfl)
      (fun w _ x => methodmapAt?_frame ho x),
    findSome?_statements hu ho hc hb (fun x => by rw [htypedef]; rfl) ht,
    findSome?_statements hu ho hc' hb' (fun x => by rw [htypedef]; rfl) ht]

end PawnApi.Declaration

namespace PawnApi.Source

open PawnApi.Declaration (depthAfter foldl_of_level?)

/-! ## Texts between braces -/

/-- A text that may stand between braces: its lines end with line feeds, a scan of it ends
    outside comments and literals, and it closes the braces that it opens and no others. -/
structure ClosedBody (body : List Char) : Prop where
  noReturn : '\r' ∉ body
  isOutside : (scan body).mode.isOutside = true
  balanced : Balanced '{' '}' (tokens body)

/-- The mode of a scan does not depend on the depth. -/
theorem Scan.mode_run (m : Mode) (d e : Nat) (a : List Char) :
    (Scan.run ⟨m, d⟩ a).mode = (Scan.run ⟨m, e⟩ a).mode := by
  induction a generalizing m d e with
  | nil => rfl
  | cons c a ih => exact ih (m.next c) _ _

theorem level?_modifyHead {f : Token → Token} (hf : ∀ t c, (f t).isPunct c = t.isPunct c)
    (opn cls : Char) (d : Nat) (ts : List Token) :
    level? opn cls d (ts.modifyHead f) = level? opn cls d ts := by
  cases ts with
  | nil => rfl
  | cons t ts => rw [List.modifyHead_cons, level?, level?, hf, hf]

theorem level?_lexFrom (opn cls : Char) (first : Bool) (d : Nat) (s : List Char) :
    level? opn cls d (lexFrom first s).tokens = level? opn cls d (tokens s) := by
  rw [tokens_lexFrom]
  apply level?_modifyHead
  intro t c
  rfl

/-- A scan does not come out of a comment that is never closed. -/
theorem isOutside_of_unclosed {d : Nat} {lead r : List Char}
    (hm : (Scan.run ⟨.code, d⟩ lead).mode = .code) (hr : closeComment? r = none) :
    (Scan.run ⟨.code, d⟩ (lead ++ '/' :: '*' :: r)).mode.isOutside = false := by
  rw [Scan.run_append]
  generalize Scan.run ⟨.code, d⟩ lead = l at hm
  obtain ⟨m, k⟩ := l
  obtain rfl : m = .code := hm
  exact Scan.run_block_of_closeComment?_eq_none k hr

/-- An outline without blocks is all lead, if the scan ends outside comments. -/
theorem outlineFrom_of_chunks_eq_nil {d : Nat} {s : List Char}
    (ho : (Scan.run ⟨.code, d⟩ s).mode.isOutside = true) (hc : (outlineFrom d s).chunks = []) :
    outlineFrom d s = ⟨s, [], []⟩ := by
  cases firstBlock d s with
  | none h => exact h
  | unclosed lead r hs hm hr _ =>
    rw [hs, isOutside_of_unclosed hm hr] at ho
    simp at ho
  | block lead r body after _ _ _ h =>
    rw [h] at hc
    simp [Outline.push, Outline.document] at hc

namespace ClosedBody

variable {body : List Char}

theorem isOutside_run (h : ClosedBody body) (d : Nat) :
    (Scan.run ⟨.code, d⟩ body).mode.isOutside = true := by
  rw [Scan.mode_run .code d 0]
  exact h.isOutside

theorem depth_run (h : ClosedBody body) (d : Nat) : (Scan.run ⟨.code, d⟩ body).depth = d := by
  have hl : level? '{' '}' d (tokens body) = some d := by
    simpa using level?_add h.balanced d
  rw [Source.depth_run true (h.isOutside_run d)]
  exact foldl_of_level? hl

/-- A body inside braces holds no documentation block. -/
theorem outlineFrom_eq (h : ClosedBody body) (d : Nat) :
    outlineFrom (d + 1) body = ⟨body, [], []⟩ := by
  refine outlineFrom_of_chunks_eq_nil (h.isOutside_run (d + 1)) ?_
  cases firstBlock (d + 1) body with
  | none h => rw [h]
  | unclosed lead r _ _ _ h => rw [h]
  | block lead r _ _ hs hl _ _ =>
    -- the text before such a block would close more braces than it opens
    have hcut : (Scan.run ⟨.code, d + 1⟩ lead).CutsAt ('/' :: '*' :: '*' :: r) :=
      Or.inl (congrArg Scan.mode hl)
    have hd : Detached lead ('/' :: '*' :: '*' :: r) := by
      intro _ _ e he _
      obtain rfl : '/' = e := by simpa using he
      decide
    have htokens := congrArg Lexed.tokens (lexFrom_append true hcut hd)
    have hbalanced : level? '{' '}' 0 (lexFrom true body).tokens = some 0 := h.balanced
    rw [hs, htokens, Lexed.after, level?_append] at hbalanced
    obtain ⟨k, hk, -⟩ := Option.bind_eq_some_iff.1 hbalanced
    have hdepth := Source.depth_run true hcut.isOutside
    rw [foldl_of_level? (by simpa using level?_add hk (d + 1)), hl] at hdepth
    simp at hdepth

end ClosedBody

section Braces

variable {pre body : List Char}

/-- An outline goes on behind a body as if nothing stood between the braces. -/
theorem outline_braces (ho : (scan pre).mode.isOutside = true)
    (hd : (tokens pre).foldl depthAfter 0 = 0) (hb : ClosedBody body) (post : List Char) :
    outline (pre ++ '{' :: (body ++ '}' :: post))
      = (outline pre).append ((outline post).push ('{' :: (body ++ ['}']))) := by
  have hmark : ∀ {c : Char} {r : List Char}, c ≠ '/' → c ≠ '*' →
      ∀ e ∈ (c :: r).head?, e ≠ '/' ∧ e ≠ '*' := by
    intro c r h₁ h₂ e he
    obtain rfl : c = e := by simpa using he
    exact ⟨h₁, h₂⟩
  have hdepth : (Scan.run ⟨.code, 0⟩ pre).depth = 0 := (depth_run true ho).trans hd
  have hpre : (Scan.run ⟨.code, 0⟩ pre).CutsAt ('{' :: (body ++ '}' :: post)) :=
    .of_isOutside ho (hmark (by decide) (by decide))
  have hbody : (Scan.run ⟨.code, 1⟩ body).CutsAt ('}' :: post) :=
    .of_isOutside (hb.isOutside_run 1) (hmark (by decide) (by decide))
  have hopen : outlineFrom 0 ('{' :: (body ++ '}' :: post))
      = (outlineFrom 1 (body ++ '}' :: post)).push ['{'] := by
    rw [outlineFrom_cons 0 (opensComment_of_ne (by decide) _), if_neg (by decide)]
    rfl
  have hclose : outlineFrom 1 ('}' :: post) = (outlineFrom 0 post).push ['}'] := by
    rw [outlineFrom_cons 1 (opensComment_of_ne (by decide) _), if_neg (by decide)]
    rfl
  have hinside : outlineFrom 1 (body ++ '}' :: post)
      = (outlineFrom 0 post).push (body ++ ['}']) := by
    rw [outlineFrom_append hbody, hb.outlineFrom_eq 0, hb.depth_run, hclose, Outline.append]
    simp [Outline.push]
  rw [outline, outlineFrom_append hpre, hdepth, hopen, hinside, Outline.push_push]
  rfl

/-- The tokens around a body: those before it, the braces with the tokens of the body, and
    those behind it. -/
theorem exists_tokens_braces (ho : (scan pre).mode.isOutside = true) :
    ∃ o : Token, o.isPunct '{' = true ∧ ∀ body, (scan body).mode.isOutside = true →
      Balanced '{' '}' (tokens body) → ∃ bs c, Balanced '{' '}' bs ∧ c.isPunct '}' = true ∧
        ∀ post, tokens (pre ++ '{' :: (body ++ '}' :: post))
          = tokens pre ++ o :: (bs ++ c :: (lexFrom false post).tokens) := by
  refine ⟨⟨(lex pre).tail, .punct, ['{'], true && (tokens pre).isEmpty ||
    (lex pre).tail.contains '\n'⟩, rfl, fun body hb hbalanced => ?_⟩
  refine ⟨(lexFrom false body).tokens, ⟨(lexFrom false body).tail, .punct, ['}'],
    false && (lexFrom false body).tokens.isEmpty || (lexFrom false body).tail.contains '\n'⟩,
    ?_, rfl, fun post => ?_⟩
  · exact (level?_lexFrom '{' '}' false 0 body).trans hbalanced
  · rw [tokens, lex, lexFrom_append_mark true ho (by decide),
      lexFrom_append_mark false hb (by decide)]
    rfl

/-- The last documentation block documents all that follows it. -/
theorem exists_last_place (ho : (scan pre).mode.isOutside = true) :
    chunks pre = [] ∨ ∃ (cs : List Chunk) (p : Place),
      chunks pre = cs ++ [⟨p.block, p.after⟩] ∧ DocBlock pre p.before p.block p.after ∧
        outlineFrom 0 p.after = ⟨p.after, [], []⟩ := by
  obtain ⟨ps, hps, -, hall, hlast⟩ := exists_places pre.length 0 [] pre le_rfl rfl
  rcases List.eq_nil_or_concat ps with rfl | ⟨qs, p, rfl⟩
  · exact Or.inl hps
  · rw [List.concat_eq_append] at *
    have hdoc : DocBlock pre p.before p.block p.after := (hall p (by simp)).1
    have hscan : scan pre = Scan.run ⟨.code, 0⟩ p.after := by
      rw [← hdoc.append_eq, scan, Scan.run_append]
      rw [show Scan.run {} p.before = ⟨.code, 0⟩ from hdoc.scan_before]
      exact hdoc.run_block p.after
    rw [hscan] at ho
    have hall := outlineFrom_of_chunks_eq_nil ho (hlast p (by simp))
    refine Or.inr ⟨qs.map Place.chunk, p, ?_, hdoc, hall⟩
    rw [chunks, outline, hps, List.map_append, List.map_singleton, Place.chunk, hall]

theorem GroupsClosed.of_modifyHead {opn cls : Char} {f : Token → Token} {ts : List Token}
    (hf : ∀ t, (f t).isPunct opn = t.isPunct opn) (h : GroupsClosed opn cls (ts.modifyHead f)) :
    GroupsClosed opn cls ts := by
  rintro lead t rest rfl ht
  cases lead with
  | nil => exact h [] (f t) rest rfl ((hf t).trans ht)
  | cons l lead => exact h (f l :: lead) t rest rfl ht

/-- The code behind the last block ends where the whole text ends, and brackets that are
    closed in the text are closed in the code. -/
theorem DocBlock.last_code {source before block x : List Char}
    (h : DocBlock source before block x) (hx : outlineFrom 0 x = ⟨x, [], []⟩) :
    scan (Text.trimStart x) = scan source ∧
      ∀ opn cls, GroupsClosed opn cls (tokens source) →
        GroupsClosed opn cls (tokens (Text.trimStart x)) := by
  obtain ⟨front, rest, hsource, hfront, -, hscan, opensLine, more, hnil, htokens⟩ :=
    h.exists_front
  rw [hx] at hsource hfront htokens
  have hrest : rest = [] := by
    rw [← h.append_eq, ← hfront] at hsource
    simpa using hsource
  subst hrest
  rw [hnil rfl, List.append_nil] at htokens
  refine ⟨?_, fun opn cls hclosed => ?_⟩
  · rw [hsource, List.append_nil, scan, scan, Scan.run_append]
    rw [show Scan.run {} front = ⟨.code, 0⟩ from hscan]
  · rw [htokens] at hclosed
    refine GroupsClosed.of_modifyHead ?_ hclosed.of_append
    intro t
    rfl

theorem extendLast_append (s : List Char) (cs : List Chunk) (c : Chunk) :
    extendLast s (cs ++ [c]) = cs ++ [⟨c.comment, c.body ++ s⟩] := by
  induction cs with
  | nil => rfl
  | cons e cs ih =>
    rw [List.cons_append, List.cons_append, ← ih]
    cases cs <;> rfl

end Braces

end PawnApi.Source

namespace PawnApi.Include

open PawnApi.Source PawnApi.Declaration

/-- The entry of a chunk does not depend on a body in it, but for a methodmap's members. -/
theorem entryOf_body (block : List Char) {x body body' : List Char}
    (ho : (scan (Text.trimStart x)).mode.isOutside = true)
    (hd : (tokens (Text.trimStart x)).foldl depthAfter 0 = 0)
    (hp : GroupsClosed '(' ')' (tokens (Text.trimStart x)))
    (hs : GroupsClosed '[' ']' (tokens (Text.trimStart x)))
    (hb : ClosedBody body) (hb' : ClosedBody body') (file : String) (rest : List Char) :
    (entryOf file ⟨block, x ++ '{' :: (body ++ '}' :: rest)⟩).map Entry.withoutMembers
      = (entryOf file ⟨block, x ++ '{' :: (body' ++ '}' :: rest)⟩).map Entry.withoutMembers := by
  obtain ⟨o, hopen, htokens⟩ := exists_tokens_braces ho
  obtain ⟨bs, c, hbs, hc, hts⟩ := htokens body hb.isOutside hb.balanced
  obtain ⟨bs', c', hbs', hc', hts'⟩ := htokens body' hb'.isOutside hb'.balanced
  have hcode : ∀ r, Text.trimStart (x ++ '{' :: r) = Text.trimStart x ++ '{' :: r :=
    fun r => Text.trimStart_append (by decide) x r
  -- an entry is made of the declaration found, so dropping members commutes with making it
  have hmake : ∀ (comment : Doc.Comment) (code : List Char),
      (classify code comment file).map Entry.withoutMembers
        = ((find? comment.tags (tokens code)).map Found.withoutMembers).map fun d =>
          ⟨d.name, d.shape, comment.description, comment.tags, d.written, file⟩ := by
    intro comment code
    rw [classify, Option.map_map, Option.map_map]
    rfl
  rw [entryOf, entryOf, hmake, hmake, Chunk.code, Chunk.code, hcode, hcode, hts, hts']
  exact congrArg _ (find?_body _ hd hs hp hopen hc hc' hbs hbs')

/-- **Bodies.** Between braces that open outside comments, literals, braces and other
    brackets, one closed and balanced body is as good as another: the entries are the same
    but for the members of methodmaps. -/
theorem parse_body {pre body body' : List Char} (post : List Char) (file : String)
    (hcr : '\r' ∉ pre) (ho : (scan pre).mode.isOutside = true)
    (hd : (tokens pre).foldl depthAfter 0 = 0)
    (hp : GroupsClosed '(' ')' (tokens pre)) (hs : GroupsClosed '[' ']' (tokens pre))
    (hb : ClosedBody body) (hb' : ClosedBody body') :
    (parse (pre ++ '{' :: body ++ '}' :: post) file).map Entry.withoutMembers
      = (parse (pre ++ '{' :: body' ++ '}' :: post) file).map Entry.withoutMembers := by
  have hlf : ∀ b, ClosedBody b → Text.lfEndings (pre ++ '{' :: b ++ '}' :: post)
      = pre ++ '{' :: (b ++ '}' :: Text.lfEndings post) := by
    intro b hb
    have hfront : '\r' ∉ pre ++ '{' :: b ++ ['}'] := by
      simp [hcr, hb.noReturn]
    have := Text.lfEndings_append hfront post
    simpa using this
  rw [parse, parse, hlf body hb, hlf body' hb', chunks, chunks, outline_braces ho hd hb,
    outline_braces ho hd hb']
  generalize Text.lfEndings post = post
  have hpre : (scan pre).depth = 0 := (depth_run true ho).trans hd
  rcases exists_last_place ho with hnil | ⟨cs, p, hcs, hdoc, hafter⟩
  · rw [chunks] at hnil
    rw [Outline.append, Outline.append, hnil]
    rfl
  · obtain ⟨hscan, hclosed⟩ := hdoc.last_code hafter
    rw [← hscan] at ho
    have hdepth : (tokens (Text.trimStart p.after)).foldl depthAfter 0 = 0 := by
      have hcode := depth_run true ho
      rw [show Scan.run ⟨.code, 0⟩ (Text.trimStart p.after) = scan pre from hscan] at hcode
      exact hcode.symm.trans hpre
    have hchunks : ∀ b, ((outline pre).append ((outline post).push ('{' :: (b ++ ['}'])))).chunks
        = cs ++ ⟨p.block, p.after ++ '{' :: (b ++ '}' :: (outline post).lead)⟩
          :: (outline post).chunks := by
      intro b
      rw [chunks] at hcs
      rw [Outline.append, hcs, if_neg (by simp), extendLast_append]
      simp [Outline.push]
    have hentry := entryOf_body p.block ho hdepth (hclosed _ _ hp) (hclosed _ _ hs)
      hb hb' file (outline post).lead
    rw [hchunks, hchunks, List.map_filterMap, List.map_filterMap, List.filterMap_append,
      List.filterMap_append, List.filterMap_cons, List.filterMap_cons, hentry]

/-- A body with a documentation block, a declaration and braces in a literal and a comment
    stands for an empty one. -/
theorem parse_body_stock :
    (parse ("/** A. */\nstock int[] A(int b = (1)) ".toList ++ '{' :: [] ++ '}' ::
        "\n/** C. */\nnative void C();\n".toList) "a.inc").map Entry.withoutMembers
      = (parse ("/** A. */\nstock int[] A(int b = (1)) ".toList ++
        '{' :: "\n/** B. */\nnative void B();\n'\x7d' \"\x7d\" // \x7d\n\x7b\x7d".toList ++ '}' ::
        "\n/** C. */\nnative void C();\n".toList) "a.inc").map Entry.withoutMembers :=
  parse_body _ "a.inc" (by decide) (by decide) (by decide +kernel) (by decide +kernel)
    (by decide +kernel) ⟨by decide, by decide, by decide +kernel⟩
    ⟨by decide, by decide, by decide +kernel⟩

end PawnApi.Include
