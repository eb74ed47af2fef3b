/-
  PawnApi.Proofs.Bytewise.TextCursor

  Cursors in the tokens of a text.

  A cursor that stands before the last tokens of a text (`Cursor.before`) shows what these
  tokens are: the same marks, and words whose texts are cut out at places between two
  characters. So a reader by offsets can be compared with a function on token lists. A
  bracket group is read by its offsets as it is from the tokens
  (`balanced_before_of_some`, `balanced_before_of_none`), and so is a statement skipped
  (`skipStatement_before`). `balanced_matches` sums up what a group is.
-/
import PawnApi.Param.Reader
import PawnApi.Proofs.Bytewise.Cursor

namespace PawnApi.Bytewise

open PawnApi.Source

/-! ## Placed tokens -/

/-- The tokens of a text by their offsets. -/
def placed (s : List Char) : List Placed :=
  (located s).map place

@[simp] theorem length_placed (s : List Char) : (placed s).length = (Source.tokens s).length := by
  simp [placed, located]

/-- The token behind the tokens of `lead`, by its offsets. -/
def placeAt (lead : List Token) (t : Token) : Placed :=
  place (t.locate (byteSize (Token.render lead ++ t.gap), byteSize (Token.render (lead ++ [t]))))

section Text

variable {s : List Char}

theorem getElem?_placed {lead rest : List Token} {t : Token}
    (h : Source.tokens s = lead ++ t :: rest) :
    (placed s)[lead.length]? = some (placeAt lead t) := by
  have htake : (lead ++ t :: rest).take (lead.length + 1) = lead ++ [t] := by
    rw [← List.singleton_append, ← List.append_assoc, List.take_left' (by simp)]
  rw [placed, List.getElem?_map, located, getElem?_locateFrom, h, htake]
  simp [placeAt]

theorem text_eq_of_tokens {lead rest : List Token} {t : Token}
    (h : Source.tokens s = lead ++ t :: rest) :
    s = (Token.render lead ++ t.gap) ++ (t.text ++ (Token.render rest ++ (lex s).tail)) := by
  have htext := Lexed.text_lex s
  rw [Lexed.text, show (lex s).tokens = lead ++ t :: rest from h] at htext
  refine htext.symm.trans ?_
  simp

/-- The text of a token is cut out at places between two characters. -/
theorem text_placeAt {lead rest : List Token} {t : Token}
    (h : Source.tokens s = lead ++ t :: rest) : (placeAt lead t).text s = .ok t.text := by
  have hcut := excerpt_append (Token.render lead ++ t.gap) t.text
    (Token.render rest ++ (lex s).tail)
  rw [← text_eq_of_tokens h] at hcut
  simpa [Placed.text, placeAt, place, Token.locate, Nat.add_assoc] using hcut

theorem kind_placeAt_eq_ident (lead : List Token) (t : Token) :
    (placeAt lead t).kind = .ident ↔ t.kind = .ident := by
  cases hk : t.kind <;> simp [placeAt, place, Token.locate, Kind.of, hk]

/-- A token of a text is the same mark whichever way it is given. -/
theorem isPunct_placeAt {lead rest : List Token} {t : Token}
    (h : Source.tokens s = lead ++ t :: rest) (e : Char) :
    (placeAt lead t).isPunct e = t.isPunct e := by
  have hform := ((Lexed.lossless_iff.2 rfl).fits lead t rest h).form
  cases hk : t.kind with
  | punct =>
    rw [hk] at hform
    obtain ⟨c, hc⟩ : ∃ c, t.text = [c] := by
      generalize t.text = text at hform
      cases hform
      exact ⟨_, rfl⟩
    simp [Placed.isPunct, placeAt, place, Token.locate, Kind.of, hk, hc, Token.isPunct]
  | _ => simp [Placed.isPunct, placeAt, place, Token.locate, Kind.of, hk, Token.isPunct]

end Text

namespace Cursor

/-- The cursor before the last tokens of a text. -/
def before (s : List Char) (rest : List Token) : Cursor :=
  ⟨s, placed s, (Source.tokens s).length - rest.length⟩

variable {s : List Char}

theorem before_eq {lead rest : List Token} (h : Source.tokens s = lead ++ rest) :
    before s rest = ⟨s, placed s, lead.length⟩ := by
  simp [before, h]

theorem next_before {t : Token} {rest : List Token} (h : t :: rest <:+ Source.tokens s) :
    (before s (t :: rest)).next = before s rest := by
  have := h.length_le
  simp only [List.length_cons] at this
  simp only [next, before, List.length_cons, Cursor.mk.injEq, true_and]
  omega

/-- The cursor at the end of the tokens. -/
theorem before_end (s : List Char) (ts : List Token) :
    { before s ts with pos := (before s ts).tokens.length } = before s [] := by
  simp [before]

theorem atEnd_before (s : List Char) (ts : List Token) : (before s ts).atEnd = before s [] := by
  simp only [atEnd, before, length_placed, List.length_nil, Cursor.mk.injEq, true_and]
  omega

@[simp] theorem peek_before_nil : (before s []).peek = none := by
  simp [peek, before]

theorem peek_before {lead rest : List Token} {t : Token}
    (h : Source.tokens s = lead ++ t :: rest) :
    (before s (t :: rest)).peek = some (placeAt lead t) := by
  rw [before_eq h, peek, getElem?_placed h]

theorem left_before {rest : List Token} (h : rest <:+ Source.tokens s) :
    (before s rest).left = rest.length := by
  have := h.length_le
  simp only [left, before, length_placed]
  omega

theorem left_before_pos {t : Token} {rest : List Token} (h : t :: rest <:+ Source.tokens s) :
    0 < (before s (t :: rest)).left := by
  rw [left_before h]
  exact Nat.succ_pos _

theorem peekNth_one (c : Cursor) : c.peekNth 1 = c.next.peek := rfl

/-- The mark at a cursor is the mark at the front of the tokens. -/
theorem peekPunct_before {rest : List Token} (h : rest <:+ Source.tokens s) (e : Char) :
    (before s rest).peekPunct e = rest.head?.any (·.isPunct e) := by
  cases rest with
  | nil => simp [peekPunct]
  | cons t rest =>
    obtain ⟨lead, hlead⟩ := h
    rw [peekPunct, peek_before hlead.symm]
    exact isPunct_placeAt hlead.symm e

/-- The word at a cursor is the word at the front of the tokens. -/
theorem peekIdent_before {rest : List Token} (h : rest <:+ Source.tokens s) :
    (before s rest).peekIdent = .ok (rest.head?.bind Token.ident?) := by
  cases rest with
  | nil => simp [peekIdent]
  | cons t rest =>
    obtain ⟨lead, hlead⟩ := h
    rw [peekIdent, peek_before hlead.symm, List.head?_cons, Option.bind_some, Token.ident?]
    simp only [kind_placeAt_eq_ident]
    split
    · rw [show (before s (t :: rest)).source = s from rfl, text_placeAt hlead.symm]
      rfl
    · rfl

end Cursor

/-! ## Readers of a text -/

theorem ident?_eq_some_iff_isWord {t : Token} {w : String} : t.ident? = some w ↔ t.isWord w = true := by
  simp only [Token.ident?, Token.isWord, Option.ite_none_right_eq_some, Option.some.injEq,
    Bool.and_eq_true, decide_eq_true_eq]
  refine and_congr_right fun _ => ⟨fun h => ?_, fun h => ?_⟩
  · rw [← h, String.toList_ofList]
  · rw [h, String.ofList_toList]

theorem isWord_eq_decide (t : Token) (w : String) : t.isWord w = decide (t.ident? = some w) := by
  rw [Bool.eq_iff_iff, decide_eq_true_eq, ident?_eq_some_iff_isWord]

/-- Before the last tokens of a text, the reader finds what `found` says, and the tokens
    that are left are those of `found`. Where nothing is found, the cursor may stand
    anywhere. -/
def Reads {α : Type} (s : List Char) (x : Read α) (ts : List Token)
    (found : Option (α × List Token)) : Prop :=
  ∃ c, x (.before s ts) = .ok (match found with
    | some (a, rest) => (some a, .before s rest)
    | none => (none, c))

namespace Reads

open Cursor

variable {α β : Type} {s : List Char} {t : Token} {ts : List Token}

theorem of_some {x : Read α} {a : α} {rest : List Token}
    (h : x (before s ts) = .ok (some a, before s rest)) : Reads s x ts (some (a, rest)) :=
  ⟨before s ts, h⟩

theorem of_none {x : Read α} {c : Cursor} (h : x (before s ts) = .ok (none, c)) :
    Reads s x ts none :=
  ⟨c, h⟩

theorem eq_of_some {x : Read α} {a : α} {rest : List Token} (h : Reads s x ts (some (a, rest))) :
    x (before s ts) = .ok (some a, before s rest) :=
  h.choose_spec

theorem bind_some {x : Read α} {f : α → Read β} {a : α} {rest : List Token}
    {found : Option (β × List Token)} (hx : Reads s x ts (some (a, rest)))
    (hf : Reads s (f a) rest found) : Reads s (x >>= f) ts found := by
  obtain ⟨c, hc⟩ := hf
  exact ⟨c, (Read.bind_of_some hx.eq_of_some).trans hc⟩

theorem bind_none {x : Read α} {f : α → Read β} (hx : Reads s x ts none) :
    Reads s (x >>= f) ts none := by
  obtain ⟨c, hc⟩ := hx
  exact ⟨c, Read.bind_of_none hc⟩

theorem bind {x : Read α} {f : α → Read β} {found : Option (α × List Token)}
    {g : α × List Token → Option (β × List Token)} (hx : Reads s x ts found)
    (hf : ∀ a rest, found = some (a, rest) → Reads s (f a) rest (g (a, rest))) :
    Reads s (x >>= f) ts (found.bind g) := by
  cases found with
  | none => exact bind_none hx
  | some p => exact bind_some hx (hf p.1 p.2 rfl)

theorem pure (a : α) : Reads s (pure a) ts (some (a, ts)) :=
  of_some rfl

theorem map {x : Read α} {found : Option (α × List Token)} (hx : Reads s x ts found) (f : α → β) :
    Reads s (x >>= fun a => Pure.pure (f a)) ts (found.map fun p => (f p.1, p.2)) := by
  rw [Option.map_eq_bind]
  exact hx.bind fun a rest _ => pure (f a)

theorem nothing : Reads s (Read.nothing : Read α) ts none :=
  of_none rfl

theorem here : Reads s Read.here ts (some (before s ts, ts)) :=
  of_some rfl

theorem get_some (a : α) : Reads s (Read.get (some a)) ts (some (a, ts)) :=
  of_some rfl

theorem get_none : Reads s (Read.get (none : Option α)) ts none :=
  of_none rfl

theorem lift {x : Checked α} {a : α} (h : x = .ok a) : Reads s (Read.lift x) ts (some (a, ts)) := by
  subst h
  exact of_some rfl

theorem token {lead : List Token} (h : Source.tokens s = lead ++ t :: ts) :
    Reads s token (t :: ts) (some (placeAt lead t, ts)) := by
  apply of_some
  rw [Bytewise.token, peek_before h]
  simp only [next_before ⟨lead, h.symm⟩]

theorem ident (hts : ts <:+ Source.tokens s) : Reads s ident ts (Declaration.ident? ts) := by
  refine ⟨before s ts, ?_⟩
  rw [Bytewise.ident, peekIdent_before hts]
  cases ts with
  | nil => rfl
  | cons t us =>
    rw [List.head?_cons, Option.bind_some, Declaration.ident?, next_before hts]
    cases t.ident? <;> rfl

/-- What comes behind an identifier is read behind the first token. -/
theorem bind_ident {f : String → Read β} {g : String → Option (β × List Token)}
    (hts : t :: ts <:+ Source.tokens s)
    (hf : ∀ w, t.ident? = some w → Reads s (f w) ts (g w)) :
    Reads s (Bytewise.ident >>= f) (t :: ts) (t.ident?.bind g) := by
  have hident := ident hts
  rw [Declaration.ident?] at hident
  cases hw : t.ident? with
  | none =>
    rw [hw] at hident
    exact bind_none hident
  | some w =>
    rw [hw] at hident
    exact bind_some hident (hf w hw)

theorem eatWord (hts : ts <:+ Source.tokens s) (w : String) :
    Reads s (eatWord w) ts (some (ts.head?.any (·.isWord w), Param.dropWord w ts)) := by
  apply of_some
  rw [Bytewise.eatWord, peekIdent_before hts]
  cases ts with
  | nil => rfl
  | cons t us =>
    rw [List.head?_cons, Option.bind_some, Option.any_some, Param.dropWord, next_before hts]
    rw [isWord_eq_decide]
    by_cases hw : t.ident? = some w <;> simp [Except.map, hw]

theorem eatPunct (hts : ts <:+ Source.tokens s) (e : Char) :
    Reads s (eatPunct e) ts (some (ts.head?.any (·.isPunct e), Param.dropPunct e ts)) := by
  apply of_some
  rw [Bytewise.eatPunct, skipPunct, peekPunct_before hts]
  cases ts with
  | nil => rfl
  | cons t us =>
    rw [List.head?_cons, Option.any_some, Param.dropPunct, next_before hts]
    split <;> simp_all

end Reads

/-! ## Groups and statements of a text -/

section Text

open Cursor

variable {s : List Char}

/-- What each placed token shows, all of them show in order. -/
theorem map_placed {α : Type} {f : Placed → α} {g : Token → α}
    (h : ∀ lead t rest, Source.tokens s = lead ++ t :: rest → f (placeAt lead t) = g t) :
    (placed s).map f = (Source.tokens s).map g := by
  apply List.ext_getElem?
  intro i
  by_cases hi : i < (Source.tokens s).length
  · have hsplit : Source.tokens s =
        (Source.tokens s).take i ++ (Source.tokens s)[i] :: (Source.tokens s).drop (i + 1) := by
      rw [List.getElem_cons_drop, List.take_append_drop]
    have hplaced := getElem?_placed hsplit
    rw [List.length_take, Nat.min_eq_left (by omega)] at hplaced
    rw [List.getElem?_map, hplaced, List.getElem?_map, List.getElem?_eq_getElem hi,
      Option.map_some, Option.map_some, h _ _ _ hsplit]
  · rw [List.getElem?_eq_none (by simpa using hi),
      List.getElem?_eq_none (by simpa using hi)]

theorem closing?_placed {lead rest : List Token} (h : Source.tokens s = lead ++ rest)
    (opn cls : Char) (depth : Nat) :
    closing? (·.isPunct opn) (·.isPunct cls) depth ((placed s).drop lead.length) =
      closing? (·.isPunct opn) (·.isPunct cls) depth rest := by
  apply closing?_eq_of_map_eq
  rw [List.map_drop, map_placed (g := fun t => (t.isPunct opn, t.isPunct cls)), h]
  · simp
  · intro lead t rest hsplit
    simp only [isPunct_placeAt hsplit]

/-- What stands between two tokens is cut out at places between two characters. -/
theorem excerpt_between {lead mid rest : List Token} {t u : Token}
    (h : Source.tokens s = lead ++ t :: (mid ++ u :: rest)) :
    excerpt s (placeAt lead t).stop (placeAt (lead ++ t :: mid) u).start =
      .ok (Token.render mid ++ u.gap) := by
  have hu : Source.tokens s = lead ++ t :: mid ++ u :: rest := by simpa using h
  have hs := text_eq_of_tokens hu
  have hcut := excerpt_append (Token.render (lead ++ [t])) (Token.render mid ++ u.gap)
    (u.text ++ (Token.render rest ++ (lex s).tail))
  have hs' : Token.render (lead ++ [t]) ++ (Token.render mid ++ u.gap ++
      (u.text ++ (Token.render rest ++ (lex s).tail))) = s := by
    refine Eq.trans ?_ hs.symm
    simp
  rw [hs'] at hcut
  simpa [placeAt, place, Token.locate, Nat.add_assoc] using hcut

/-- A group is read by its offsets as it is from the tokens. -/
theorem balanced_before_of_some {opn cls : Char} {ts : List Token} {g : Group}
    (hts : ts <:+ Source.tokens s) (h : group? opn cls ts = some g) :
    ∃ start stop, balanced opn cls (before s ts) = .ok (some (start, stop), before s g.rest) ∧
      excerpt s start stop = .ok g.text := by
  obtain ⟨lead, hlead⟩ := hts
  cases ts with
  | nil => simp [group?] at h
  | cons t us =>
    rw [group?] at h
    split at h
    · rename_i hopn
      rw [closeGroup?_eq_closing?] at h
      obtain ⟨k, hk, hg⟩ := Option.bind_eq_some_iff.1 h
      obtain ⟨u, hu, rfl⟩ := Option.map_eq_some_iff.1 hg
      obtain ⟨hlt, rfl⟩ := List.getElem?_eq_some_iff.1 hu
      -- the closing bracket stands `k` tokens behind the opening one
      have hus : us.take k ++ us[k] :: us.drop (k + 1) = us := by
        rw [List.getElem_cons_drop, List.take_append_drop]
      have hsplit : Source.tokens s = lead ++ t :: (us.take k ++ us[k] :: us.drop (k + 1)) := by
        rw [hus, hlead]
      refine ⟨_, _, ?_, excerpt_between hsplit⟩
      have hcloser : Source.tokens s = lead ++ t :: us.take k ++ us[k] :: us.drop (k + 1) := by
        simpa using hsplit
      have hbehind : Source.tokens s = lead ++ t :: us.take k ++ [us[k]] ++ us.drop (k + 1) := by
        simpa using hsplit
      have hus' : Source.tokens s = lead ++ [t] ++ us := by simpa using hlead.symm
      have hplaced := getElem?_placed hcloser
      have hlen : (lead ++ t :: us.take k).length = lead.length + 1 + k := by
        simp only [List.length_append, List.length_cons, List.length_take]
        omega
      rw [hlen] at hplaced
      have hclosing := closing?_placed hus' opn cls 0
      rw [List.length_append, List.length_singleton, hk] at hclosing
      rw [before_eq hlead.symm, before_eq hbehind, List.length_append, hlen,
        balanced_of_opens (getElem?_placed hlead.symm) (by rw [isPunct_placeAt hlead.symm, hopn])]
      simp [hclosing, hplaced]
    · simp at h

theorem balanced_before_of_none {opn cls : Char} {ts : List Token}
    (hts : ts <:+ Source.tokens s) (h : group? opn cls ts = none) :
    balanced opn cls (before s ts) = .ok (none, before s ts) := by
  obtain ⟨lead, hlead⟩ := hts
  cases ts with
  | nil =>
    refine balanced_of_not_opens fun t ht => ?_
    have hnil := peek_before_nil (s := s)
    rw [peek, ht] at hnil
    cases hnil
  | cons t us =>
    rw [group?] at h
    split at h
    · rename_i hopn
      rw [closeGroup?_eq_closing?] at h
      have hus : Source.tokens s = lead ++ [t] ++ us := by simpa using hlead.symm
      have hclosing := closing?_placed hus opn cls 0
      rw [List.length_append, List.length_singleton] at hclosing
      rw [before_eq hlead.symm,
        balanced_of_opens (getElem?_placed hlead.symm) (by rw [isPunct_placeAt hlead.symm, hopn]),
        hclosing]
      cases hk : closing? (fun t => t.isPunct opn) (fun t => t.isPunct cls) 0 us with
      | none => rfl
      | some k =>
        -- the search finds no place past the end
        rw [hk, Option.bind_some, Option.map_eq_none_iff, List.getElem?_eq_none_iff] at h
        have hlen := congrArg List.length hlead
        simp only [List.length_append, List.length_cons] at hlen
        have hnone : (placed s)[lead.length + 1 + k]? = none :=
          List.getElem?_eq_none (by rw [length_placed]; omega)
        simp only [Option.bind_some, hnone]
        rfl
    · rename_i hopn
      refine balanced_of_not_opens fun u hu => ?_
      have hpeek := peek_before hlead.symm
      rw [peek, hu, Option.some.injEq] at hpeek
      rw [hpeek, isPunct_placeAt hlead.symm]
      simpa using hopn

theorem skipPunct_before {ts : List Token} (hts : ts <:+ Source.tokens s) :
    (before s ts).skipPunct ';' = before s (dropSemicolon ts) := by
  rw [skipPunct, peekPunct_before hts]
  cases ts with
  | nil => rfl
  | cons t us =>
    rw [dropSemicolon, List.head?_cons, Option.any_some]
    split
    · exact next_before hts
    · rfl

/-- A statement is skipped by offsets as it is in the tokens. -/
theorem skipStatement_before {ts : List Token} (hts : ts <:+ Source.tokens s) :
    skipStatement (before s ts) = .ok (before s (dropStatement ts)) := by
  induction ts with
  | nil =>
    rw [skipStatement, Loop.run_of_left_eq_zero (left_before hts)]
    rfl
  | cons t us ih =>
    have hus : us <:+ Source.tokens s := (List.suffix_cons t us).trans hts
    have hpos : 0 < statementLoop.left (before s (t :: us)) := left_before_pos hts
    obtain ⟨lead, hlead⟩ := hts
    have hpeek := peek_before hlead.symm
    rw [skipStatement, dropStatement]
    split
    · -- a block ends the statement; one that is never closed takes all that is left
      rename_i hbrace
      refine Loop.run_of_done hpos ?_
      have hgroup : group? '{' '}' (t :: us) = closeGroup? '{' '}' 0 us := by
        rw [group?, if_pos hbrace]
      change statementTurn (before s (t :: us)) = _
      unfold statementTurn
      rw [hpeek]
      simp only [isPunct_placeAt hlead.symm, hbrace, if_true]
      cases hg : closeGroup? '{' '}' 0 us with
      | none =>
        rw [balanced_before_of_none ⟨lead, hlead⟩ (hgroup.trans hg), ok_bind]
        simp only [Option.isNone_none, if_true, before_end,
          skipPunct_before (s := s) List.nil_suffix]
        rfl
      | some g =>
        obtain ⟨start, stop, hrun, -⟩ :=
          balanced_before_of_some ⟨lead, hlead⟩ (hgroup.trans hg)
        have hrest : g.rest <:+ Source.tokens s :=
          (Declaration.suffix_of_group? (hgroup.trans hg)).trans ⟨lead, hlead⟩
        rw [hrun, ok_bind]
        simp only [Option.isNone_some, Bool.false_eq_true, if_false, skipPunct_before hrest]
        rfl
    · rename_i hbrace
      have hturn : statementLoop.body (before s (t :: us)) =
          .ok (if t.isPunct ';' then .done (before s us) else .again (before s us)) := by
        change statementTurn (before s (t :: us)) = _
        unfold statementTurn
        rw [hpeek]
        simp only [isPunct_placeAt hlead.symm, hbrace, Bool.false_eq_true, if_false,
          next_before ⟨lead, hlead⟩]
        rfl
      split
      · rename_i hsemi
        rw [if_pos hsemi] at hturn
        exact Loop.run_of_done hpos hturn
      · rename_i hsemi
        rw [if_neg hsemi] at hturn
        rw [Loop.run_of_again hpos hturn]
        exact ih hus

end Text

/-! ## Groups in a row, and what was read -/

section Text

open Cursor

variable {s : List Char}

/-- The groups in a row are those of the tokens, and each gives what `visit` makes of its
    text. -/
theorem Reads.dimensions {visit : List Char → Nat × Nat → Checked (List Char)}
    {step : List Char → Group → List Char}
    (hvisit : ∀ gathered start stop g, excerpt s start stop = .ok (Group.text g) →
      visit gathered (start, stop) = .ok (step gathered g))
    {ts : List Token} (hts : ts <:+ Source.tokens s) (gathered : List Char) :
    Reads s (dimensions visit gathered) ts
      ((dimensions? ts).map fun p => (p.1.foldl step gathered, p.2)) := by
  fun_induction dimensions? ts generalizing gathered with
  | case1 =>
    apply Reads.of_some
    rw [Bytewise.dimensions, Loop.run_of_left_eq_zero]
    · rfl
    · exact left_before hts
  | case2 t ts hopn hnone =>
    -- a bracket that is never closed: nothing is read
    have hgroup : group? '[' ']' (t :: ts) = none := by rw [group?, if_pos hopn, hnone]
    apply Reads.of_none (c := before s (t :: ts))
    refine Loop.run_of_done (left_before_pos hts) ?_
    change dimensionTurn visit (before s (t :: ts), gathered) = _
    simp only [dimensionTurn, peekPunct_before hts, List.head?_cons, Option.any_some, hopn, if_true,
      balanced_before_of_none hts hgroup, ok_bind]
    rfl
  | case3 t ts hopn g hg ih =>
    have hgroup : group? '[' ']' (t :: ts) = some g := by rw [group?, if_pos hopn, hg]
    obtain ⟨start, stop, hspan, htext⟩ := balanced_before_of_some hts hgroup
    have hrest : g.rest <:+ Source.tokens s := (Declaration.suffix_of_group? hgroup).trans hts
    have hturn : (dimensionLoop visit).body (before s (t :: ts), gathered) =
        .ok (.again (before s g.rest, step gathered g)) := by
      change dimensionTurn visit (before s (t :: ts), gathered) = _
      simp only [dimensionTurn, peekPunct_before hts, List.head?_cons, Option.any_some, hopn,
        if_true, hspan, ok_bind, hvisit gathered start stop g htext]
      rfl
    obtain ⟨c, hc⟩ := ih hrest (step gathered g)
    refine ⟨c, ?_⟩
    rw [Bytewise.dimensions, Loop.run_of_again (left_before_pos hts) hturn]
    refine hc.trans ?_
    cases dimensions? g.rest <;> rfl
  | case4 t ts hopn =>
    -- no bracket: the row of groups ends here
    apply Reads.of_some
    refine Loop.run_of_done (left_before_pos hts) ?_
    change dimensionTurn visit (before s (t :: ts), gathered) = _
    simp only [dimensionTurn, peekPunct_before hts, List.head?_cons, Option.any_some, hopn,
      Bool.false_eq_true, if_false]
    rfl

theorem stop_placeAt (lead : List Token) (t : Token) :
    (placeAt lead t).stop = byteSize (Token.render (lead ++ [t])) := rfl

/-- The token before a cursor is the last one that was passed. -/
theorem prev_before {lead rest : List Token} {u : Token}
    (h : Source.tokens s = lead ++ u :: rest) : (before s rest).prev = some (placeAt lead u) := by
  have hrest : Source.tokens s = lead ++ [u] ++ rest := by simpa using h
  rw [before_eq hrest, prev, if_neg (by simp)]
  simpa using getElem?_placed h

/-- The offset at which the tokens before the last ones of a text end. -/
def endBefore (s : List Char) (rest : List Token) : Nat :=
  byteSize (Token.render ((Source.tokens s).take ((Source.tokens s).length - rest.length)))

theorem endBefore_eq {lead rest : List Token} (h : Source.tokens s = lead ++ rest) :
    endBefore s rest = byteSize (Token.render lead) := by
  simp [endBefore, h]

/-- The token before a cursor ends where the tokens that were passed end. -/
theorem exists_prev_before {t : Token} {us rest : List Token} (h : t :: us <:+ Source.tokens s)
    (hrest : rest <:+ us) : ∃ u, (before s rest).prev = some u ∧ u.stop = endBefore s rest := by
  obtain ⟨lead, hlead⟩ := h
  obtain ⟨mid, rfl⟩ := hrest
  rcases List.eq_nil_or_concat (lead ++ t :: mid) with hnil | ⟨front, u, hu⟩
  · simp at hnil
  · have hsplit : Source.tokens s = front ++ u :: rest := by
      rw [← hlead, ← List.cons_append, ← List.append_assoc, hu]
      simp
    have hend : Source.tokens s = front ++ [u] ++ rest := by simpa using hsplit
    refine ⟨_, prev_before hsplit, ?_⟩
    rw [endBefore_eq hend, stop_placeAt]

/-- What stands from the start of one token to the end of another is cut out at places
    between two characters. -/
theorem excerpt_span {lead us rest : List Token} {t : Token}
    (h : Source.tokens s = lead ++ t :: us) (hrest : rest <:+ us) :
    excerpt s (placeAt lead t).start (endBefore s rest) =
      .ok (Token.span ((t :: us).take ((t :: us).length - rest.length))) := by
  obtain ⟨mid, rfl⟩ := hrest
  have hs := text_eq_of_tokens h
  have hend : Source.tokens s = lead ++ t :: mid ++ rest := by simpa using h
  have htake : (t :: (mid ++ rest)).take ((t :: (mid ++ rest)).length - rest.length) = t :: mid := by
    rw [← List.cons_append, List.length_append, Nat.add_sub_cancel, List.take_left]
  have hcut := excerpt_append (Token.render lead ++ t.gap) (Token.span (t :: mid))
    (Token.render rest ++ (lex s).tail)
  have hs' : Token.render lead ++ t.gap ++ (Token.span (t :: mid) ++
      (Token.render rest ++ (lex s).tail)) = s := by
    refine Eq.trans ?_ hs.symm
    simp [Token.span]
  rw [hs'] at hcut
  rw [htake, endBefore_eq hend]
  simpa [placeAt, place, Token.locate, Token.span, Nat.add_assoc] using hcut

end Text

/-! ## The inside of a group as a text of its own -/

/-- The token as the first one of a text. -/
def opening (t : Token) : Token :=
  { t with opensLine := true }

/-- The text of a group, read on its own, has the tokens inside the group. -/
theorem tokens_groupText {s : List Char} {opn cls : Char} {ts : List Token} {g : Group}
    (hts : ts <:+ Source.tokens s) (h : group? opn cls ts = some g) :
    Source.tokens g.text = g.inside.modifyHead opening := by
  obtain ⟨lead, hlead⟩ := hts
  cases ts with
  | nil => simp [group?] at h
  | cons t us =>
    rw [group?] at h
    split at h
    · rw [← append_of_closeGroup? h] at hlead
      obtain ⟨inside, closer, rest⟩ := g
      cases inside with
      | nil =>
        have hsplit : Source.tokens s = lead ++ [t] ++ closer :: rest := by
          simpa using hlead.symm
        have hfits := (Lexed.lossless_iff.2 (rfl : lex s = lex s)).fits _ _ _ hsplit
        have hlex : (⟨[], closer.gap⟩ : Lexed).Lossless closer.gap :=
          ⟨rfl, fun lead t rest h => by simp at h, hfits.isGap.of_isPrefix List.nil_prefix⟩
        exact congrArg Lexed.tokens (Lexed.lossless_iff.1 hlex)
      | cons u inside =>
        have hsplit : Source.tokens s = lead ++ [t] ++ (u :: inside ++ closer :: rest) := by
          simpa using hlead.symm
        have hgap : u.gap = [] ∨ u.gap = u.gap := .inr rfl
        have hcut := lex_cut hsplit hgap (.inr ⟨closer, rest, rfl, rfl⟩)
        have htext : Group.text ⟨u :: inside, closer, rest⟩ =
            u.gap ++ (u.text ++ (Token.render inside ++ closer.gap)) := by
          simp [Group.text]
        rw [htext]
        exact congrArg Lexed.tokens hcut
    · simp at h

/-! ## The bracket that closes a group -/

/-- **Matching brackets.** Of two different brackets, a group is read at a cursor exactly if
    the first stands there and up to some later token as many close as open. It ends at
    the first such token, which is a closing bracket: the cursor moves just behind it, and
    the offsets found are the end of the opening bracket and the start of the closing one.
    The tokens between them are nested. If there is no such token, nothing is found and
    the cursor stays. The same holds of the groups in a list of tokens; and in the tokens
    of a text, what stands between the two offsets is the text of the group. -/
theorem balanced_matches {opn cls : Char} (hne : opn ≠ cls) :
    (∀ c : Cursor,
      ((∃ span c', balanced opn cls c = .ok (some span, c')) ↔
        ∃ j, ClosesAt (·.isPunct opn) (·.isPunct cls) c.tokens c.pos j) ∧
      (∀ j, IsLeast {j | ClosesAt (·.isPunct opn) (·.isPunct cls) c.tokens c.pos j} j →
        (∃ first closer, c.tokens[c.pos]? = some first ∧ c.tokens[j]? = some closer ∧
          closer.isPunct cls = true ∧
          balanced opn cls c = .ok (some (first.stop, closer.start), { c with pos := j + 1 })) ∧
        Nested (·.isPunct opn) (·.isPunct cls) (interior c.tokens c.pos j)) ∧
      ((∀ j, ¬ ClosesAt (·.isPunct opn) (·.isPunct cls) c.tokens c.pos j) →
        balanced opn cls c = .ok (none, c))) ∧
    (∀ (ts : List Token) (i : Nat),
      (∀ j, IsLeast {j | ClosesAt (·.isPunct opn) (·.isPunct cls) ts i j} j →
        (∃ closer, ts[j]? = some closer ∧ closer.isPunct cls = true ∧
          group? opn cls (ts.drop i) = some ⟨interior ts i j, closer, ts.drop (j + 1)⟩) ∧
        Nested (·.isPunct opn) (·.isPunct cls) (interior ts i j)) ∧
      ((∀ j, ¬ ClosesAt (·.isPunct opn) (·.isPunct cls) ts i j) →
        group? opn cls (ts.drop i) = none)) ∧
    ∀ (s : List Char) (ts : List Token) (g : Group), ts <:+ Source.tokens s →
      group? opn cls ts = some g →
      ∃ start stop,
        balanced opn cls (.before s ts) = .ok (some (start, stop), .before s g.rest) ∧
        excerpt s start stop = .ok g.text := by
  refine ⟨fun c => ⟨⟨?_, ?_⟩, fun j hj => ⟨balanced_of_isLeast hne hj, ?_⟩,
    balanced_of_not_closesAt hne⟩, fun ts i => ⟨fun j hj => ⟨group?_of_isLeast hne hj, ?_⟩,
    group?_of_not_closesAt hne⟩, fun s ts g => balanced_before_of_some⟩
  · -- a cursor where nothing closes the bracket finds nothing
    rintro ⟨span, c', hspan⟩
    by_contra hnone
    rw [balanced_of_not_closesAt hne fun j hj => hnone ⟨j, hj⟩] at hspan
    cases hspan
  · rintro ⟨j, hj⟩
    obtain ⟨k, hk⟩ := exists_isLeast_closesAt hj
    obtain ⟨first, closer, -, -, -, hspan⟩ := balanced_of_isLeast hne hk
    exact ⟨_, _, hspan⟩
  · exact nested_interior (fun _ ht => Placed.isPunct_of_ne ht hne) hj
  · exact nested_interior (fun _ ht => Token.isPunct_of_ne ht hne) hj

/-- In `((a))`, the group at the start takes in the other one. -/
theorem balanced_matches_outer :
    '(' ≠ ')' ∧ ∀ c : Cursor,
      c = ⟨"((a))".toList, [⟨.punct '(', 0, 1, true⟩, ⟨.punct '(', 1, 2, false⟩,
        ⟨.ident, 2, 3, false⟩, ⟨.punct ')', 3, 4, false⟩, ⟨.punct ')', 4, 5, false⟩], 0⟩ →
      balanced '(' ')' c = .ok (some (1, 4), { c with pos := 5 }) := by
  have hne : '(' ≠ ')' := by decide
  refine ⟨hne, fun c hc => ?_⟩
  have hleast : IsLeast {j | ClosesAt (·.isPunct '(') (·.isPunct ')') c.tokens c.pos j} 4 := by
    subst hc
    refine ⟨⟨⟨_, rfl, rfl⟩, by decide, by decide, by decide⟩, fun k hk => ?_⟩
    have hpos : 0 < k := hk.lt
    by_contra hlt
    have hcases : k = 1 ∨ k = 2 ∨ k = 3 := by omega
    rcases hcases with rfl | rfl | rfl <;> exact absurd hk.equal (by decide)
  obtain ⟨⟨first, closer, hfirst, hcloser, -, hspan⟩, -⟩ :=
    ((balanced_matches hne).1 c).2.1 4 hleast
  subst hc
  cases hfirst
  cases hcloser
  exact hspan

end PawnApi.Bytewise
