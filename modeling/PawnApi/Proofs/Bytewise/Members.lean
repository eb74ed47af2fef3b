/-
  PawnApi.Proofs.Bytewise.Members

  The members of a methodmap body read by offsets.

  Each turn of the loop reads a property or a method, or skips a statement, and moves on
  by at least one token whichever of these it does (`of_memberTurn`). The loop finds the
  methods and properties of the tokens of the body (`methodmapBody_eq`).
-/
import PawnApi.Proofs.Bytewise.Headers
import PawnApi.Proofs.Nesting

namespace PawnApi.Bytewise

open PawnApi.Source PawnApi.Declaration

/-- Reads the type and the name of a property. -/
def property : Read Property := do
  let type ← typeName
  let name ← ident
  return ⟨name, type⟩

/-- Whether the words that introduce a property come next. For the second one only its
    text is looked at. -/
def propertyFollows (c : Cursor) : Checked Bool := do
  let word ← c.peekIdent
  if word = some "public" then
    match c.peekNth 1 with
    | some t => do
      let text ← t.text c.source
      return decide (text = "property".toList)
    | none => return false
  else return false

/-- How far a body has been read. -/
structure BodyState where
  cursor : Cursor
  methods : List Method
  properties : List Property

/-- One turn: a property, a method, or a statement that is skipped. -/
def memberTurn (st : BodyState) : Checked BodyState := do
  if ← propertyFollows st.cursor then
    match ← property st.cursor.next.next with
    | (some p, c) => do
      let c ← skipStatement c
      return { st with cursor := c, properties := st.properties ++ [p] }
    | (none, _) => do
      let c ← skipStatement st.cursor
      return { st with cursor := c }
  else
    match ← function true st.cursor with
    | (some f, c) => do
      let params ← parseParams f.params {}
      return { st with
        cursor := c
        methods := st.methods ++ [⟨f.name, f.kind, f.returnType, params, f.written⟩] }
    | (none, _) => do
      let c ← skipStatement st.cursor
      return { st with cursor := c }

/-! ## Progress -/

theorem strict_property : Read.Strict property :=
  strict_typeName.bind fun _ => strict_ident.forward.bind fun _ => Read.forward_pure _

/-- Whatever a turn reads or skips, it moves on by at least one token. -/
theorem of_memberTurn {st st' : BodyState} (hpos : 0 < st.cursor.left)
    (h : memberTurn st = .ok st') :
    st.cursor.Ahead st'.cursor ∧ st.cursor.pos < st'.cursor.pos := by
  obtain ⟨follows, -, h⟩ := bind_eq_ok_iff.1 h
  split at h
  · obtain ⟨⟨found, c⟩, hfound, h⟩ := bind_eq_ok_iff.1 h
    cases found with
    | some p =>
      obtain ⟨c', hskip, h⟩ := bind_eq_ok_iff.1 h
      cases h
      -- the two words and the property are passed before the rest of the statement
      obtain ⟨hahead, hlt⟩ := strict_property hfound
      have hwords := st.cursor.ahead_next.trans st.cursor.next.ahead_next
      have hrest := hwords.trans (hahead.trans (ahead_of_skipStatement hskip))
      have hle := (ahead_of_skipStatement hskip).le
      have hstart := hwords.le
      refine ⟨hrest, ?_⟩
      show st.cursor.pos < c'.pos
      omega
    | none =>
      obtain ⟨c', hskip, h⟩ := bind_eq_ok_iff.1 h
      cases h
      exact of_skipStatement hpos hskip
  · obtain ⟨⟨found, c⟩, hfound, h⟩ := bind_eq_ok_iff.1 h
    cases found with
    | some f =>
      obtain ⟨params, -, h⟩ := bind_eq_ok_iff.1 h
      cases h
      exact strict_function true hfound
    | none =>
      obtain ⟨c', hskip, h⟩ := bind_eq_ok_iff.1 h
      cases h
      exact of_skipStatement hpos hskip

def memberLoop : Loop BodyState (List Method × List Property) where
  left st := st.cursor.left
  body st := (memberTurn st).map .again
  exit st := (st.methods, st.properties)
  progress := by
    intro st st' hpos h
    obtain ⟨hahead, hlt⟩ := of_memberTurn hpos (Turn.eq_ok_of_map_again h)
    exact Cursor.left_lt hpos hahead hlt

/-- The methods and properties of a methodmap body. -/
def methodmapBody (text : List Char) : Checked (List Method × List Property) := do
  let ts ← tokenize text
  memberLoop.run ⟨⟨text, ts, 0⟩, [], []⟩

/-! ## What the turns read -/

section Text

open Cursor

variable {s : List Char} {ts : List Token}

theorem Reads.property (hts : ts <:+ Source.tokens s) : Reads s property ts (property? ts) := by
  refine (Reads.typeName hts).bind fun type rest htype => ?_
  exact (Reads.ident ((suffix_of_typeName? htype).trans hts)).bind fun name rest _ => Reads.pure _

/-- A token whose text is a word is that word, since no other kind starts with a letter. -/
theorem isWord_property_eq {lead rest : List Token} {t : Token}
    (h : Source.tokens s = lead ++ t :: rest) :
    t.isWord "property" = decide (t.text = "property".toList) := by
  have hform := ((Lexed.lossless_iff.2 rfl).fits lead t rest h).form
  rw [Token.isWord, Bool.and_eq_right_iff_imp, decide_eq_true_eq, decide_eq_true_eq]
  intro htext
  rw [htext, show "property".toList = ['p', 'r', 'o', 'p', 'e', 'r', 't', 'y'] from rfl] at hform
  generalize t.kind = kind at hform
  cases hform with
  | ident => rfl
  | number hc => exact absurd hc (by decide)

theorem propertyFollows_before (hts : ts <:+ Source.tokens s) :
    propertyFollows (before s ts) = .ok (propertyFollows? ts).isSome := by
  rw [propertyFollows, peekIdent_before hts, ok_bind, peekNth_one]
  cases ts with
  | nil => rfl
  | cons t us =>
    rw [List.head?_cons, Option.bind_some, next_before hts]
    cases us with
    | nil =>
      rw [peek_before_nil]
      split <;> rfl
    | cons u us =>
      have hus : u :: us <:+ Source.tokens s := (List.suffix_cons t (u :: us)).trans hts
      obtain ⟨lead, hlead⟩ := hus
      rw [peek_before hlead.symm, propertyFollows?, isWord_eq_decide, isWord_property_eq hlead.symm]
      split
      · rename_i hpublic
        simp only [hpublic]
        rw [show (before s (t :: u :: us)).source = s from rfl, text_placeAt hlead.symm, ok_bind]
        cases decide (u.text = "property".toList) <;> rfl
      · rename_i hpublic
        simp [hpublic]
        rfl

theorem exists_of_propertyFollows? {rest : List Token} (h : propertyFollows? ts = some rest) :
    ∃ t u, ts = t :: u :: rest := by
  unfold propertyFollows? at h
  split at h
  · split at h
    · cases h
      exact ⟨_, _, rfl⟩
    · cases h
  · cases h

/-- What a turn makes of the member at the front of the tokens, or of the statement that is
    skipped if there is none. -/
def stateAfter (s : List Char) (ts : List Token) (methods : List Method)
    (properties : List Property) : BodyState :=
  match memberAt? ts with
  | some (.method m, rest) => ⟨before s rest, methods ++ [m], properties⟩
  | some (.property p, rest) => ⟨before s rest, methods, properties ++ [p]⟩
  | none => ⟨before s (dropStatement ts), methods, properties⟩

theorem memberTurn_before (hts : ts <:+ Source.tokens s) (methods : List Method)
    (properties : List Property) :
    memberTurn ⟨before s ts, methods, properties⟩ = .ok (stateAfter s ts methods properties) := by
  have hskip := skipStatement_before hts
  rw [memberTurn, propertyFollows_before hts, ok_bind, stateAfter, memberAt?]
  cases hp : propertyFollows? ts with
  | some rest =>
    have hrest : rest <:+ Source.tokens s := (suffix_of_propertyFollows? hp).trans hts
    have hnext : (before s ts).next.next = before s rest := by
      obtain ⟨t, u, rfl⟩ := exists_of_propertyFollows? hp
      rw [next_before hts, next_before ((List.suffix_cons t (u :: rest)).trans hts)]
    obtain ⟨c, hc⟩ := Reads.property hrest
    simp only [Option.isSome_some, if_true, hnext]
    cases hq : property? rest with
    | some q =>
      rw [hq] at hc
      rw [hc, ok_bind]
      simp only [skipStatement_before ((suffix_of_property? hq).trans hrest), ok_bind]
      rfl
    | none =>
      rw [hq] at hc
      rw [hc, ok_bind]
      simp only [hskip, ok_bind]
      rfl
  | none =>
    obtain ⟨found, ⟨c, hc⟩, hrel⟩ := Reads.function hts true
    simp only [Option.isSome_none, Bool.false_eq_true, if_false]
    rw [hc, ok_bind]
    cases hf : function? true ts with
    | none =>
      rw [hf] at hrel
      cases hrel
      simp only [hskip, ok_bind]
      rfl
    | some q =>
      rw [hf] at hrel
      cases hrel with
      | some hpq =>
        rename_i p
        obtain ⟨text, after⟩ := p
        have hshows : text.Shows q.1 := hpq.1
        have hafter : after = q.2 := hpq.2
        subst hafter
        simp only [hshows.params_eq, ok_bind, hshows.name_eq, hshows.kind_eq,
          hshows.returnType_eq, hshows.written_eq]
        rfl

theorem goesOn_memberLoop {t : Token} {us : List Token} (hts : t :: us <:+ Source.tokens s)
    (ms : List Method) (ps : List Property) :
    memberLoop.GoesOn ⟨before s (t :: us), ms, ps⟩ (stateAfter s (t :: us) ms ps) := by
  refine ⟨left_before_pos hts, ?_⟩
  change (memberTurn _).map _ = _
  rw [memberTurn_before hts]
  rfl

/-- The loop finds the members of the tokens that are left. -/
theorem run_memberLoop (hts : ts <:+ Source.tokens s) (ms : List Method) (ps : List Property) :
    memberLoop.run ⟨before s ts, ms, ps⟩ = .ok (ms ++ methods ts, ps ++ properties ts) := by
  induction ts using members_induction generalizing ms ps with
  | nil =>
    rw [Loop.run_of_left_eq_zero (show (before s []).left = 0 from left_before hts)]
    simp [memberLoop, methods, properties, members]
  | skip t us hm ih =>
    have hgoes := goesOn_memberLoop hts ms ps
    rw [Loop.run_of_again hgoes.1 hgoes.2, stateAfter, methods, properties, members_cons, hm]
    exact ih ((suffix_dropStatement (t :: us)).trans hts) ms ps
  | member t us m rest hm ih =>
    have hgoes := goesOn_memberLoop hts ms ps
    have hrest : rest <:+ Source.tokens s := (suffix_of_memberAt? hm).trans hts
    rw [Loop.run_of_again hgoes.1 hgoes.2, stateAfter, methods, properties, members_cons, hm]
    cases m with
    | method m =>
      refine (ih hrest (ms ++ [m]) ps).trans ?_
      simp [methods, properties, List.filterMap_cons, Member.method?, Member.property?]
    | property p =>
      refine (ih hrest ms (ps ++ [p])).trans ?_
      simp [methods, properties, List.filterMap_cons, Member.method?, Member.property?]

end Text

/-- **Members of a body.** Reading a methodmap body by offsets traps nowhere and gives the
    methods and properties of its tokens. -/
theorem methodmapBody_eq (text : List Char) :
    methodmapBody text = .ok (methods (Source.tokens text), properties (Source.tokens text)) := by
  have hrun := run_memberLoop (List.suffix_refl (Source.tokens text)) [] []
  rw [← start_eq_before] at hrun
  rw [methodmapBody, tokenize_eq, ok_bind]
  exact hrun

end PawnApi.Bytewise
