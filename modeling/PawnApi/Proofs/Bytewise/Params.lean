/-
  PawnApi.Proofs.Bytewise.Params

  Parameter lists read by offsets.

  A list is cut at its top-level commas into pieces, each of them the text between two
  offsets (`splitTopLevel`), and each piece is lexed again and read at a cursor
  (`parameter`). No cut is made inside a character and the count of angle pairs is never
  taken below zero; what is found is what the tokens of the list hold
  (`splitTopLevel_eq`, `parseParams_eq`).
-/
import PawnApi.Proofs.Bytewise.TextCursor
import PawnApi.Proofs.ParamPhrases

namespace PawnApi.Bytewise

open PawnApi.Source PawnApi.Param

/-! ## Cutting at commas -/

/-- The token at a place. -/
def nth (ts : List Placed) (i : Nat) : Checked Placed :=
  match ts[i]? with
  | some t => .ok t
  | none => .error (.index i)

/-- Whether the token at a place touches an identifier before it. -/
def touchesIdent (ts : List Placed) (i : Nat) : Checked Bool :=
  match if i = 0 then none else ts[i - 1]? with
  | some u =>
    if u.kind = .ident then do
      let t ← nth ts i
      return decide (u.stop = t.start)
    else return false
  | none => return false

/-- Whether the less-than sign at a place begins a shift or a comparison. -/
def beginsComparison (ts : List Placed) (i : Nat) : Checked Bool :=
  match ts[i + 1]? with
  | some u => do
    let t ← nth ts i
    return decide (u.start = t.stop) && (u.isPunct '<' || u.isPunct '=')
  | none => return false

/-- Whether the less-than sign at a place opens an angle pair. -/
def opensAngleAt (ts : List Placed) (i : Nat) : Checked Bool := do
  let afterIdent ← touchesIdent ts i
  let compares ← beginsComparison ts i
  return afterIdent && !compares

/-- What is open after the token at a place. -/
def nestingAfter (ts : List Placed) (i : Nat) (t : Placed) (n : Nesting) : Checked Nesting :=
  if t.isPunct '(' || t.isPunct '[' || t.isPunct '{' then
    return { n with brackets := n.brackets + 1 }
  else if t.isPunct ')' || t.isPunct ']' || t.isPunct '}' then
    return { n with brackets := n.brackets - 1 }
  else if t.isPunct '<' then do
    let opens ← opensAngleAt ts i
    return if opens then { n with angles := n.angles + 1 } else n
  else if t.isPunct '>' && decide (0 < n.angles) then do
    let angles ← pred n.angles
    return { n with angles }
  else return n

/-- How far a list has been cut. -/
structure Split where
  nesting : Nesting
  /-- Where the piece begins and ends that is being read, once it has a token. -/
  span : Option (Nat × Nat)
  pieces : List (List Char)

/-- The pieces, with the one that is being read. -/
def Split.finish (raw : List Char) (st : Split) : Checked (List (List Char)) :=
  match st.span with
  | some (start, stop) => do
    let piece ← excerpt raw start stop
    return st.pieces ++ [piece]
  | none => return st.pieces

/-- One token further. -/
def splitStep (raw : List Char) (ts : List Placed) (i : Nat) (t : Placed) (st : Split) :
    Checked Split :=
  if t.isPunct ',' && st.nesting.isClosed then do
    let pieces ← st.finish raw
    return ⟨st.nesting, none, pieces⟩
  else do
    let nesting ← nestingAfter ts i t st.nesting
    return ⟨nesting, some ((st.span.map Prod.fst).getD t.start, t.stop), st.pieces⟩

def splitFrom (raw : List Char) (ts : List Placed) : Nat → List Placed → Split → Checked Split
  | _, [], st => .ok st
  | i, t :: rest, st => do
    let st ← splitStep raw ts i t st
    splitFrom raw ts (i + 1) rest st

/-- The texts between the top-level commas of a parameter list. -/
def splitTopLevel (raw : List Char) : Checked (List (List Char)) := do
  let ts ← tokenize raw
  let st ← splitFrom raw ts 0 ts ⟨{}, none, []⟩
  st.finish raw

section Text

variable {s : List Char} {lead rest : List Token} {t : Token}

/-- Whether the last token is an identifier. -/
def endsWithIdent (ts : List Token) : Bool :=
  ts.getLast?.any (·.kind = .ident)

theorem nth_placed (h : Source.tokens s = lead ++ t :: rest) :
    nth (placed s) lead.length = .ok (placeAt lead t) := by
  rw [nth, getElem?_placed h]

/-- A token starts where a text ends exactly if there is no gap before it. -/
theorem start_placeAt_eq_iff (lead : List Token) (t : Token) :
    byteSize (Token.render lead) = (placeAt lead t).start ↔ t.gap = [] := by
  have hstart : (placeAt lead t).start = byteSize (Token.render lead) + byteSize t.gap := by
    simp [placeAt, place, Token.locate]
  rw [hstart]
  constructor
  · intro heq
    by_contra hne
    have := byteSize_pos hne
    omega
  · intro hnil
    rw [hnil]
    rfl

theorem touchesIdent_eq (h : Source.tokens s = lead ++ t :: rest) :
    touchesIdent (placed s) lead.length = .ok (endsWithIdent lead && t.gap.isEmpty) := by
  rcases List.eq_nil_or_concat lead with rfl | ⟨lead', u, rfl⟩
  · rfl
  · rw [List.concat_eq_append] at h ⊢
    have hu : Source.tokens s = lead' ++ u :: t :: rest := by simpa using h
    have hget : (if (lead' ++ [u]).length = 0 then none
        else (placed s)[(lead' ++ [u]).length - 1]?) = some (placeAt lead' u) := by
      rw [if_neg (by simp)]
      simpa using getElem?_placed hu
    have hident : endsWithIdent (lead' ++ [u]) = decide (u.kind = .ident) := by
      simp [endsWithIdent]
    have hgap : decide ((placeAt lead' u).stop = (placeAt (lead' ++ [u]) t).start) =
        t.gap.isEmpty := by
      rw [stop_placeAt, Bool.eq_iff_iff, decide_eq_true_eq, start_placeAt_eq_iff,
        List.isEmpty_iff]
    rw [touchesIdent, hget, hident]
    simp only [kind_placeAt_eq_ident, nth_placed h, ok_bind, hgap]
    split
    · simp [*]
      rfl
    · simp [*]
      rfl

theorem beginsComparison_eq (h : Source.tokens s = lead ++ t :: rest) :
    beginsComparison (placed s) lead.length =
      .ok (rest.head?.any fun u => u.gap.isEmpty && (u.isPunct '<' || u.isPunct '=')) := by
  cases rest with
  | nil =>
    have hnone : (placed s)[lead.length + 1]? = none := by
      rw [List.getElem?_eq_none_iff, length_placed, h]
      simp
    rw [beginsComparison, hnone]
    rfl
  | cons u rest =>
    have hu : Source.tokens s = lead ++ [t] ++ u :: rest := by simpa using h
    have hget : (placed s)[lead.length + 1]? = some (placeAt (lead ++ [t]) u) := by
      simpa using getElem?_placed hu
    have hgap : decide ((placeAt (lead ++ [t]) u).start = (placeAt lead t).stop) =
        u.gap.isEmpty := by
      rw [stop_placeAt, Bool.eq_iff_iff, decide_eq_true_eq, eq_comm, start_placeAt_eq_iff,
        List.isEmpty_iff]
    rw [beginsComparison, hget]
    simp only [nth_placed h, ok_bind, hgap, isPunct_placeAt hu]
    rfl

theorem opensAngleAt_eq (h : Source.tokens s = lead ++ t :: rest) :
    opensAngleAt (placed s) lead.length = .ok (opensAngle (endsWithIdent lead) t rest) := by
  rw [opensAngleAt, touchesIdent_eq h, beginsComparison_eq h]
  rfl

/-- What is open after a token of a text. Only a greater-than sign takes from the count of
    angle pairs, and only if one is open. -/
theorem nestingAfter_eq (h : Source.tokens s = lead ++ t :: rest) (n : Nesting) :
    nestingAfter (placed s) lead.length (placeAt lead t) n =
      .ok (n.after (endsWithIdent lead) t rest) := by
  simp only [nestingAfter, Nesting.after, isPunct_placeAt h, opensAngleAt_eq h, ok_bind]
  split
  · rfl
  split
  · rfl
  cases hlt : t.isPunct '<' with
  | true =>
    have hgt : t.isPunct '>' = false := Token.isPunct_of_ne hlt (by decide)
    cases opensAngle (endsWithIdent lead) t rest <;> simp [hgt] <;> rfl
  | false =>
    cases hgt : t.isPunct '>' with
    | false => simp; rfl
    | true =>
      obtain ⟨brackets, angles⟩ := n
      cases angles with
      | zero => simp; rfl
      | succ angles =>
        -- the only place at which one is taken from a count
        simp [pred]

/-! ## The pieces -/

/-- The offsets from the first token of a stretch through its last. -/
def spanAt (lead : List Token) : List Token → Option (Nat × Nat)
  | [] => none
  | t :: us => some ((placeAt lead t).start, byteSize (Token.render (lead ++ t :: us)))

theorem spanAt_concat (lead x : List Token) (t : Token) :
    spanAt lead (x ++ [t]) = some (((spanAt lead x).map Prod.fst).getD (placeAt (lead ++ x) t).start,
      (placeAt (lead ++ x) t).stop) := by
  cases x with
  | nil => simp [spanAt, stop_placeAt]
  | cons u us => simp [spanAt, stop_placeAt]

/-- A stretch is cut out from its first token through its last. -/
theorem finish_eq {x : List Token} (h : Source.tokens s = lead ++ x ++ rest) (n : Nesting)
    (done : List (List Char)) :
    Split.finish s ⟨n, spanAt lead x, done⟩ =
      .ok (done ++ ([x].filter (!·.isEmpty)).map Token.span) := by
  cases x with
  | nil => simp [Split.finish, spanAt]; rfl
  | cons t us =>
    have hsplit : Source.tokens s = lead ++ t :: (us ++ rest) := by simpa using h
    have hcut := excerpt_span hsplit ⟨us, rfl⟩
    rw [endBefore_eq h, ← List.cons_append, List.length_append, Nat.add_sub_cancel,
      List.take_left] at hcut
    simp only [Split.finish, spanAt, hcut, ok_bind]
    rfl

/-- The tokens of a text are cut into pieces as they are by `cut`: `x` is what has been
    read of the piece, and `done` are the pieces before it. -/
theorem splitFrom_eq {x : List Token} (h : Source.tokens s = lead ++ x ++ rest) (n : Nesting)
    (done : List (List Char)) :
    (splitFrom s (placed s) (lead ++ x).length ((placed s).drop (lead ++ x).length)
        ⟨n, spanAt lead x, done⟩ >>= Split.finish s) =
      .ok (done ++ (((x ++ (cut n (endsWithIdent (lead ++ x)) rest).1) ::
        (cut n (endsWithIdent (lead ++ x)) rest).2).filter (!·.isEmpty)).map Token.span) := by
  induction rest generalizing lead x n done with
  | nil =>
    have hdrop : (placed s).drop (lead ++ x).length = [] := by
      apply List.drop_eq_nil_of_le
      rw [length_placed, h]
      simp
    rw [hdrop, splitFrom, ok_bind, finish_eq h, cut]
    simp
  | cons t rest ih =>
    have hdrop : (placed s).drop (lead ++ x).length =
        placeAt (lead ++ x) t :: (placed s).drop ((lead ++ x).length + 1) := by
      obtain ⟨hlt, hget⟩ := List.getElem?_eq_some_iff.1 (getElem?_placed h)
      rw [List.drop_eq_getElem_cons hlt, hget]
    rw [hdrop, splitFrom, splitStep, isPunct_placeAt h, cut]
    split
    · -- a comma outside all brackets ends the piece, and the next one has no token yet
      rename_i hcomma
      have hnext : Source.tokens s = lead ++ x ++ [t] ++ [] ++ rest := by simpa using h
      have hident : endsWithIdent (lead ++ x ++ [t] ++ []) = false := by
        have hkind := Token.kind_of_isPunct (Bool.and_eq_true_iff.1 hcomma).1
        simp [endsWithIdent, hkind]
      have hrest := ih hnext n (done ++ ([x].filter (!·.isEmpty)).map Token.span)
      have hlen : (lead ++ x ++ [t] ++ []).length = (lead ++ x).length + 1 := by
        simp [Nat.add_assoc]
      rw [hident, hlen] at hrest
      rw [finish_eq h]
      refine hrest.trans ?_
      cases x <;> simp
    · -- any other token goes to the piece
      have hnext : Source.tokens s = lead ++ (x ++ [t]) ++ rest := by simpa using h
      have hident : endsWithIdent (lead ++ (x ++ [t])) = decide (t.kind = .ident) := by
        simp [endsWithIdent]
      have hrest := ih hnext (n.after (endsWithIdent (lead ++ x)) t rest) done
      have hlen : (lead ++ (x ++ [t])).length = (lead ++ x).length + 1 := by simp [Nat.add_assoc]
      rw [hident, hlen, spanAt_concat] at hrest
      rw [nestingAfter_eq h]
      refine hrest.trans ?_
      simp

end Text

/-- **Pieces of a parameter list.** Cutting a text at its commas by offsets traps nowhere
    and gives the pieces of its tokens. -/
theorem splitTopLevel_eq (raw : List Char) : splitTopLevel raw = .ok (pieceTexts raw) := by
  have hsplit : Source.tokens raw = [] ++ [] ++ Source.tokens raw := rfl
  have h := splitFrom_eq hsplit {} []
  rw [splitTopLevel, tokenize_eq]
  exact h

/-! ## One parameter -/

/-- Passes over the groups in a row. -/
def passDimensions : Read (List Char) :=
  dimensions (fun gathered _ => .ok gathered) []

/-- Reads a type as it is written, but for the blanks. -/
def writtenType : Read String := do
  let c ← Read.here
  let first ← Read.get c.peek
  let _ ← ident
  let _ ← passDimensions
  let behind ← Read.here
  let last ← Read.get behind.prev
  let written ← Read.lift (excerpt c.source first.start last.stop)
  return String.ofList (written.filter fun e => !Text.isBlank e)

/-- Reads a name and passes over its dimensions. -/
def declaredName : Read String := do
  let name ← ident
  let _ ← passDimensions
  return name

/-- Reads the default of a parameter with the given name and type, and the end of its
    piece. -/
def parameterEnd (name type : String) : Read Param := do
  let c ← Read.here
  if c.peekPunct '=' then
    let equals ← token
    let rest ← Read.lift (excerptFrom c.source equals.stop)
    let text := Text.trim rest
    return { name, type, default := if text.isEmpty then none else some (String.ofList text) }
  else if c.left = 0 then return { name, type, default := none }
  else Read.nothing

/-- Reads a parameter that takes up all tokens. -/
def parameter : Read Param := do
  let _ ← eatWord "const"
  let type ← writtenType
  let _ ← eatPunct '&'
  let name ← declaredName
  parameterEnd name type

/-- Reads one piece of a parameter list. -/
def parseParam (piece : List Char) : Checked (Option Param) := do
  let ts ← tokenize piece
  let (found, _) ← parameter ⟨piece, ts, 0⟩
  return found

/-- The parameters of a list, with their documentation. -/
def parseParams (raw : List Char) (tags : Doc.Tags) : Checked (List Param) := do
  let ps ← splitTopLevel raw
  let found ← ps.mapM parseParam
  return (found.filterMap id).map (document tags)

namespace Reads

variable {s : List Char} {ts : List Token}

theorem passDimensions (hts : ts <:+ Source.tokens s) :
    Reads s passDimensions ts ((dimensions? ts).map fun p => ([], p.2)) := by
  have h : Reads s Bytewise.passDimensions ts
      ((dimensions? ts).map fun p => (p.1.foldl (fun gathered _ => gathered) [], p.2)) :=
    Reads.dimensions (fun _ _ _ _ _ => rfl) hts []
  simpa only [List.foldl_fixed] using h

theorem writtenType (hts : ts <:+ Source.tokens s) : Reads s writtenType ts (type? ts) := by
  refine bind_some here ?_
  cases ts with
  | nil =>
    rw [Cursor.peek_before_nil]
    exact bind_none get_none
  | cons t us =>
    have hdims := Reads.passDimensions ((List.suffix_cons t us).trans hts)
    obtain ⟨lead, hlead⟩ := hts
    rw [Cursor.peek_before hlead.symm]
    refine bind_some (get_some _) (bind_ident ⟨lead, hlead⟩ fun w _ => ?_)
    cases hd : dimensions? us with
    | none =>
      rw [hd] at hdims
      exact bind_none hdims
    | some p =>
      obtain ⟨gs, rest⟩ := p
      rw [hd] at hdims
      -- the last token that was passed ends the last dimension
      have hrest := Declaration.suffix_of_dimensions? hd
      obtain ⟨u, hprev, hstop⟩ := exists_prev_before ⟨lead, hlead⟩ hrest
      refine bind_some hdims (bind_some here ?_)
      have hcut := excerpt_span hlead.symm hrest
      have hle := hrest.length_le
      rw [List.length_cons, Nat.succ_sub hle, List.take_succ_cons, ← hstop] at hcut
      rw [hprev]
      exact bind_some (get_some u) (bind_some (lift hcut) (Reads.pure _))

theorem declaredName (hts : ts <:+ Source.tokens s) : Reads s declaredName ts (name? ts) := by
  cases ts with
  | nil => exact bind_none (Reads.ident hts)
  | cons t us =>
    refine bind_ident hts fun w _ => ?_
    have hdims := (Reads.passDimensions ((List.suffix_cons t us).trans hts)).map fun _ => w
    rw [Option.map_map, Option.map_eq_bind] at hdims
    exact hdims

/-- The default reaches to the end of the piece, which is the end of its last token. -/
theorem parameterEnd (hts : ts <:+ Source.tokens s) (htail : (lex s).tail = [])
    (name type : String) :
    Reads s (parameterEnd name type) ts
      ((default? ts).map fun d => ({ name, type, default := d }, ts.drop 1)) := by
  refine bind_some here ?_
  rw [Cursor.peekPunct_before hts, Cursor.left_before hts]
  cases ts with
  | nil => exact Reads.pure _
  | cons t us =>
    obtain ⟨lead, hlead⟩ := hts
    rw [List.head?_cons, Option.any_some, default?]
    split
    · have hrest : excerptFrom s (placeAt lead t).stop = .ok (Token.render us) := by
        have hs : s = Token.render (lead ++ [t]) ++ Token.render us := by
          refine (text_eq_of_tokens hlead.symm).trans ?_
          rw [htail]
          simp
        have hcut := excerptFrom_append (Token.render (lead ++ [t])) (Token.render us)
        rwa [← hs] at hcut
      exact bind_some (Reads.token hlead.symm) (bind_some (lift hrest) (Reads.pure _))
    · rw [if_neg (by simp)]
      exact Reads.nothing

/-- A piece is read at a cursor as it is from its tokens. -/
theorem parameter (hts : ts <:+ Source.tokens s) (htail : (lex s).tail = []) :
    ∃ found, Reads s parameter ts found ∧ found.map Prod.fst = ofPiece? ts := by
  obtain ⟨const, hdrop, -⟩ := exists_of_dropWord "const" ts
  have hconst : dropWord "const" ts <:+ Source.tokens s := .trans ⟨_, hdrop.symm⟩ hts
  have htype := Reads.writtenType hconst
  rw [ofPiece?]
  cases ht : type? (dropWord "const" ts) with
  | none =>
    rw [ht] at htype
    exact ⟨none, bind_some (Reads.eatWord hts "const") (bind_none htype), rfl⟩
  | some p =>
    obtain ⟨type, rest⟩ := p
    rw [ht] at htype
    obtain ⟨phrase, hphrase, -⟩ := exists_of_type? ht
    have hrest : rest <:+ Source.tokens s := .trans ⟨_, hphrase.symm⟩ hconst
    obtain ⟨ampersand, hdrop', -⟩ := exists_of_dropPunct '&' rest
    have hamp : dropPunct '&' rest <:+ Source.tokens s := .trans ⟨_, hdrop'.symm⟩ hrest
    have hname := Reads.declaredName hamp
    cases hn : name? (dropPunct '&' rest) with
    | none =>
      rw [hn] at hname
      exact ⟨none, bind_some (Reads.eatWord hts "const") (bind_some htype
        (bind_some (Reads.eatPunct hrest '&') (bind_none hname))), by simp [hn]⟩
    | some q =>
      obtain ⟨name, after⟩ := q
      rw [hn] at hname
      obtain ⟨phrase', hphrase', -⟩ := exists_of_name? hn
      have hafter : after <:+ Source.tokens s := .trans ⟨_, hphrase'.symm⟩ hamp
      refine ⟨_, bind_some (Reads.eatWord hts "const") (bind_some htype
        (bind_some (Reads.eatPunct hrest '&') (bind_some hname
          (Reads.parameterEnd hafter htail name type)))), ?_⟩
      cases hd : default? after <;> simp [hn, hd]

end Reads

/-- Before all tokens of a text. -/
theorem start_eq_before (s : List Char) : (⟨s, placed s, 0⟩ : Cursor) = .before s (Source.tokens s) := by
  simp [Cursor.before]

theorem parseParam_eq {p : List Char} (htail : (lex p).tail = []) :
    parseParam p = .ok (ofPiece? (Source.tokens p)) := by
  obtain ⟨found, ⟨c, hc⟩, hfound⟩ := Reads.parameter (List.suffix_refl (Source.tokens p)) htail
  have hstart : parameter ⟨p, placed p, 0⟩ = _ := (congrArg parameter (start_eq_before p)).trans hc
  rw [parseParam, tokenize_eq, ok_bind, ← placed, hstart, ← hfound]
  cases found <;> rfl

/-- **Parameters of a list.** Reading a text by offsets traps nowhere and gives the
    parameters of its tokens. -/
theorem parseParams_eq (raw : List Char) (tags : Doc.Tags) :
    parseParams raw tags = .ok (ofText tags raw) := by
  have hparam : ∀ p ∈ pieceTexts raw, parseParam p = .ok (ofPiece? (Source.tokens p)) :=
    fun p hp => parseParam_eq (tail_eq_nil (isPiece_of_mem hp).span_eq)
  rw [parseParams, splitTopLevel_eq, ok_bind, mapM_eq_ok hparam, ok_bind, ofText_eq]
  change Except.ok _ = _
  rw [List.filterMap_map, List.map_filterMap]
  rfl

/-! ## The parameters of a group -/

theorem keepsText_opening : KeepsText opening :=
  fun _ => ⟨rfl, rfl⟩

/-- The parameters of a list do not depend on what stands before its first token. -/
theorem ofTokens_modifyHead {f : Token → Token} (hf : KeepsText f) (tags : Doc.Tags)
    (ts : List Token) : ofTokens tags (ts.modifyHead f) = ofTokens tags ts := by
  rw [ofTokens, ofTokens, pieces, pieces, hf.cut_eq]
  cases h : (cut {} false ts).1 with
  | nil => rfl
  | cons t x =>
    have hpiece : ofPiece? (f t :: x) = ofPiece? (t :: x) := ofPiece?_modifyHead hf (t :: x)
    simp [List.filterMap_cons, hpiece]

/-- The text of a group has the parameters of the tokens inside. -/
theorem parseParams_groupText {s : List Char} {opn cls : Char} {ts : List Token} {g : Group}
    (hts : ts <:+ Source.tokens s) (h : group? opn cls ts = some g) (tags : Doc.Tags) :
    parseParams g.text tags = .ok (ofTokens tags g.inside) := by
  rw [parseParams_eq, ofText, tokens_groupText hts h, ofTokens_modifyHead keepsText_opening]

end PawnApi.Bytewise
