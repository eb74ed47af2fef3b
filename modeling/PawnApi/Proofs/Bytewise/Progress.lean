/-
  PawnApi.Proofs.Bytewise.Progress

  Every scan moves on, also over a text that is not well formed.

  A turn of the scan of a literal, of the lexer or of the search for documentation blocks
  leads to a later byte, and a turn over a methodmap body to a later token. So none of
  the loops takes more turns than there are bytes or tokens. A turn that reports a method
  passes the tokens of the method, and the next turn starts behind them: the spans of the
  methods lie one behind the other in the text (`exists_spans`).
-/
import Mathlib.Logic.Relation
import PawnApi.Proofs.Bytewise.Blocks
import PawnApi.Proofs.Bytewise.Members

namespace PawnApi.Bytewise

open PawnApi.Source PawnApi.Declaration Cursor

/-! ## Where the methods of a body stand -/

/-- A state to which the loop over a body comes from its start. -/
def Visited (s : List Char) (st : BodyState) : Prop :=
  Relation.ReflTransGen memberLoop.GoesOn ⟨⟨s, placed s, 0⟩, [], []⟩ st

/-- The loop over a body reports a method, and the tokens that it passes with it stand
    between two offsets. -/
structure ReportedAt (s : List Char) (span : Nat × Nat) (m : Method) : Prop where
  lt : span.1 < span.2
  /-- A turn adds the method. It starts with the token at the first offset, and the last
      token that it passes ends at the second one. -/
  turn : ∃ st st', Visited s st ∧ memberLoop.GoesOn st st' ∧ st'.methods = st.methods ++ [m] ∧
    st.cursor.peek.map Placed.start = some span.1 ∧ st'.cursor.prev.map Placed.stop = some span.2
  /-- What is quoted of the method is the front of the text between them. -/
  text : ∃ quoted more, excerpt s span.1 span.2 = .ok (quoted ++ more) ∧
    m.fullDeclaration = String.ofList (Text.onOneLine quoted)

section Text

variable {s : List Char} {ts : List Token}

theorem endBefore_le {rest : List Token} (hts : ts <:+ Source.tokens s) (h : rest <:+ ts) :
    endBefore s ts ≤ endBefore s rest := by
  obtain ⟨lead, hlead⟩ := hts
  obtain ⟨mid, rfl⟩ := h
  have hrest : Source.tokens s = lead ++ mid ++ rest := by simpa using hlead.symm
  rw [endBefore_eq hlead.symm, endBefore_eq hrest, Token.render_append, byteSize_append]
  omega

/-- A turn that reads a method reports it where its tokens stand. -/
theorem exists_reportedAt {t : Token} {us rest : List Token} {m : Method} {ms : List Method}
    {ps : List Property} (hts : t :: us <:+ Source.tokens s)
    (hvisited : Visited s ⟨before s (t :: us), ms, ps⟩)
    (hm : memberAt? (t :: us) = some (.method m, rest)) :
    ∃ start, ReportedAt s (start, endBefore s rest) m ∧ endBefore s (t :: us) ≤ start := by
  obtain ⟨f, hf, rfl⟩ := exists_function?_of_memberAt? hm
  obtain ⟨quoted, more, hus, hwritten⟩ := exists_quoted_of_function? hf
  have hrest : rest <:+ us := ⟨quoted ++ more, by rw [hus, List.append_assoc]⟩
  have hgoes := goesOn_memberLoop hts ms ps
  obtain ⟨u, hprev, hstop⟩ := exists_prev_before hts hrest
  obtain ⟨lead, hlead⟩ := hts
  -- what is cut out starts with the first token, so that it is not empty
  have htake : (t :: us).take ((t :: us).length - rest.length) = t :: (quoted ++ more) := by
    rw [hus, ← List.append_assoc, ← List.cons_append, List.length_append, Nat.add_sub_cancel,
      List.take_left]
  have hspan : Token.span (t :: (quoted ++ more)) = Token.span (t :: quoted) ++ Token.render more := by
    simp [Token.span]
  have hcut := excerpt_span hlead.symm hrest
  rw [htake, hspan] at hcut
  have htext : t.text ≠ [] := ((Lexed.lossless_iff.2 rfl).fits lead t us hlead.symm).form.ne_nil
  refine ⟨(placeAt lead t).start, ⟨?_, ?_, _, _, hcut, hwritten⟩, ?_⟩
  · obtain ⟨a, c, -, hstart, hend⟩ := excerpt_eq_ok_iff.1 hcut
    have hpos : 0 < byteSize (Token.span (t :: quoted) ++ Token.render more) :=
      byteSize_pos (by simp [Token.span, htext])
    show (placeAt lead t).start < endBefore s rest
    omega
  · refine ⟨_, _, hvisited, hgoes, ?_, ?_, ?_⟩
    · simp only [stateAfter, hm]
    · simp only [peek_before hlead.symm, Option.map_some]
    · simp only [stateAfter, hm, hprev, Option.map_some, hstop]
  · rw [endBefore_eq hlead.symm]
    show _ ≤ byteSize (Token.render lead ++ t.gap)
    rw [byteSize_append]
    omega

/-- The spans of the methods lie one behind the other, and behind all that was read before. -/
theorem exists_spans (hts : ts <:+ Source.tokens s) {ms : List Method} {ps : List Property}
    (hvisited : Visited s ⟨before s ts, ms, ps⟩) :
    ∃ spans, List.Forall₂ (ReportedAt s) spans (methods ts) ∧
      spans.Pairwise (fun p q => p.2 ≤ q.1) ∧ ∀ p ∈ spans, endBefore s ts ≤ p.1 := by
  induction ts using members_induction generalizing ms ps with
  | nil => exact ⟨[], by simp [methods, members]⟩
  | skip t us hm ih =>
    have hdrop := suffix_dropStatement (t :: us)
    have hnext : Visited s ⟨before s (dropStatement (t :: us)), ms, ps⟩ := by
      have hgoes := goesOn_memberLoop hts ms ps
      simp only [stateAfter, hm] at hgoes
      exact hvisited.tail hgoes
    obtain ⟨spans, hspans, hpairs, hbehind⟩ := ih (hdrop.trans hts) hnext
    refine ⟨spans, ?_, hpairs, fun p hp => ?_⟩
    · rwa [methods, members_cons, hm]
    · exact Nat.le_trans (endBefore_le hts hdrop) (hbehind p hp)
  | member t us m rest hm ih =>
    have hrest := suffix_of_memberAt? hm
    have hgoes := goesOn_memberLoop hts ms ps
    have hle := endBefore_le hts hrest
    rw [methods, members_cons, hm]
    cases m with
    | property p =>
      simp only [stateAfter, hm] at hgoes
      obtain ⟨spans, hspans, hpairs, hbehind⟩ := ih (hrest.trans hts) (hvisited.tail hgoes)
      exact ⟨spans, hspans, hpairs, fun q hq => Nat.le_trans hle (hbehind q hq)⟩
    | method m =>
      obtain ⟨start, hreported, hstart⟩ := exists_reportedAt hts hvisited hm
      simp only [stateAfter, hm] at hgoes
      obtain ⟨spans, hspans, hpairs, hbehind⟩ := ih (hrest.trans hts) (hvisited.tail hgoes)
      refine ⟨(start, endBefore s rest) :: spans, .cons hreported hspans,
        List.pairwise_cons.2 ⟨hbehind, hpairs⟩, fun q hq => ?_⟩
      rcases List.mem_cons.1 hq with rfl | hq
      · exact hstart
      · exact Nat.le_trans hle (hbehind q hq)

end Text

/-- **Every scan moves on.** Whatever a text holds, each turn after which one of the loops
    goes on leads to a later byte, or to a later token of a methodmap body. So the loops
    take no more turns than there are bytes or tokens, and the methods that are reported
    for a body stand in it one behind the other. -/
theorem loops_move_on (s : List Char) :
    (∀ quote pos pos', (quotedLoop (bytes s) quote).GoesOn pos pos' → pos < pos') ∧
    (∀ st st', (lexLoop s).GoesOn st st' → st.pos < st'.pos) ∧
    (∀ st st', (blockLoop s).GoesOn st st' → st.pos < st'.pos) ∧
    (∀ st st', memberLoop.GoesOn st st' → st.cursor.pos < st'.cursor.pos) ∧
    (∀ quote pos, (quotedLoop (bytes s) quote).turns pos ≤ (bytes s).length) ∧
    (∀ st, (lexLoop s).turns st ≤ (bytes s).length) ∧
    (∀ st, (blockLoop s).turns st ≤ (bytes s).length) ∧
    (∀ st, memberLoop.turns st ≤ st.cursor.tokens.length) ∧
    ∃ spans, List.Forall₂ (ReportedAt s) spans (methods (Source.tokens s)) ∧
      spans.Pairwise fun p q => p.2 ≤ q.1 := by
  have hturns : ∀ {σ ρ : Type} (l : Loop σ ρ) (st : σ) {n k : Nat}, l.left st = n - k →
      l.turns st ≤ n := by
    intro σ ρ l st n k hleft
    have := l.turns_le st
    omega
  have hstart : Visited s ⟨before s (Source.tokens s), [], []⟩ := by
    rw [← start_eq_before]
    exact Relation.ReflTransGen.refl
  obtain ⟨spans, hspans, hpairs, -⟩ := exists_spans (List.suffix_refl _) hstart
  refine ⟨?_, ?_, ?_, ?_, ?_, ?_, ?_, ?_, spans, hspans, hpairs⟩
  · intro quote pos pos' h
    exact lt_of_quotedTurn h.2
  · intro st st' h
    exact lt_of_lexTurn (Turn.eq_ok_of_map_again h.2)
  · intro st st' h
    exact lt_of_blockTurn h.2
  · intro st st' h
    exact (of_memberTurn h.1 (Turn.eq_ok_of_map_again h.2)).2
  · intro quote pos
    exact hturns _ pos rfl
  · intro st
    exact hturns _ st rfl
  · intro st
    exact hturns _ st rfl
  · intro st
    exact hturns _ st rfl

/-- Behind a property without a type and a closing brace too many, and in front of a body
    that is never closed, two methods are reported one behind the other. -/
theorem loops_move_on_malformed :
    ∃ p q, ReportedAt "public property ; \x7d ; native int A(); public int B() \x7b '".toList p
        ⟨"A", .native, "int", [], "native int A();"⟩ ∧
      ReportedAt "public property ; \x7d ; native int A(); public int B() \x7b '".toList q
        ⟨"B", .published, "int", [], "public int B()"⟩ ∧ p.2 ≤ q.1 := by
  obtain ⟨-, -, -, -, -, -, -, -, spans, hspans, hpairs⟩ :=
    loops_move_on "public property ; \x7d ; native int A(); public int B() \x7b '".toList
  have hmethods : methods (Source.tokens
      "public property ; \x7d ; native int A(); public int B() \x7b '".toList) =
      [⟨"A", .native, "int", [], "native int A();"⟩,
        ⟨"B", .published, "int", [], "public int B()"⟩] := by decide +kernel
  rw [hmethods] at hspans
  cases hspans with
  | cons hp hrest =>
    cases hrest with
    | cons hq hnil =>
      cases hnil
      exact ⟨_, _, hp, hq, (List.pairwise_cons.1 hpairs).1 _ List.mem_cons_self⟩

end PawnApi.Bytewise
