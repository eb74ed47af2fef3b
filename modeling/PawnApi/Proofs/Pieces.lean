/-
  PawnApi.Proofs.Pieces

  Parameter lists cut at their top-level commas, and put together again.

  Cutting leaves out commas and nothing else (`LeavesCommas`), and a piece that is read on
  its own is one piece again (`IsPiece`). A list behind a comma is cut on its own if the
  text before the comma ends closed: then joining pieces with commas and cutting the
  result gives the pieces back. Where an angle pair stays open, the comma behind it is
  passed over and the pieces grow together (`pieceTexts_join_iff`).
-/
import PawnApi.Proofs.Parameters
import PawnApi.Proofs.Spans

namespace PawnApi.Param

open PawnApi.Source

/-! ## Stretches between commas -/

theorem eq_of_isClosed {n : Nesting} (h : n.isClosed = true) : n = {} := by
  simp only [Nesting.isClosed, Bool.and_eq_true, beq_iff_eq] at h
  obtain ⟨brackets, angles⟩ := n
  obtain ⟨rfl, rfl⟩ := h
  rfl

/-- In front of a comma a token opens what it opens at the end of the list. -/
theorem after_cut (n m : Nesting) (a b : Bool) (t : Token) (ts : List Token) :
    n.after a t (cut m b ts).1 = n.after a t ts := by
  cases ts with
  | nil => rfl
  | cons u ts =>
    rw [cut]
    split
    · rename_i hu
      have hcomma := (Bool.and_eq_true_iff.1 hu).1
      have h₁ := Token.isPunct_of_ne hcomma (show ',' ≠ '<' by decide)
      have h₂ := Token.isPunct_of_ne hcomma (show ',' ≠ '=' by decide)
      simp [Nesting.after, opensAngle, h₁, h₂]
    · rfl

/-- A stretch between two cuts is not cut again. -/
theorem cut_stretch (n : Nesting) (a : Bool) (ts : List Token) :
    cut n a (cut n a ts).1 = ((cut n a ts).1, []) ∧
      ∀ ys ∈ (cut n a ts).2, cut {} false ys = (ys, []) := by
  induction ts generalizing n a with
  | nil => exact ⟨rfl, by simp [cut]⟩
  | cons t ts ih =>
    by_cases hcut : (t.isPunct ',' && n.isClosed) = true
    · rw [cut, if_pos hcut, eq_of_isClosed (Bool.and_eq_true_iff.1 hcut).2]
      obtain ⟨hfirst, hlater⟩ := ih {} false
      refine ⟨rfl, fun ys hys => ?_⟩
      rcases List.mem_cons.1 hys with rfl | hys
      · exact hfirst
      · exact hlater ys hys
    · obtain ⟨hfirst, hlater⟩ := ih (n.after a t ts) (t.kind = .ident)
      rw [cut, if_neg hcut]
      refine ⟨?_, hlater⟩
      show cut n a (t :: (cut _ _ ts).1) = _
      rw [cut, if_neg hcut, after_cut, hfirst]

/-- Tokens are the stretches between the cuts and the commas between these. -/
theorem exists_commas (n : Nesting) (a : Bool) (ts : List Token) :
    ∃ later : List (Token × List Token), (∀ s ∈ later, s.1.isPunct ',' = true) ∧
      (cut n a ts).2 = later.map Prod.snd ∧
      ts = (cut n a ts).1 ++ later.flatMap fun s => s.1 :: s.2 := by
  induction ts generalizing n a with
  | nil => exact ⟨[], by simp, rfl, rfl⟩
  | cons t ts ih =>
    rw [cut]
    split
    · rename_i hcut
      obtain ⟨later, hcomma, hlater, hts⟩ := ih n false
      refine ⟨(t, (cut n false ts).1) :: later, ?_, ?_, ?_⟩
      · intro s hs
        rcases List.mem_cons.1 hs with rfl | hs
        · exact (Bool.and_eq_true_iff.1 hcut).1
        · exact hcomma s hs
      · exact congrArg (_ :: ·) hlater
      · rw [List.nil_append, List.flatMap_cons, List.cons_append, ← hts]
    · obtain ⟨later, hcomma, hlater, hts⟩ := ih (n.after a t ts) (t.kind = .ident)
      refine ⟨later, hcomma, hlater, ?_⟩
      rw [List.cons_append, ← hts]

theorem pieces_of_cut_eq {x : List Token} (hx : x ≠ []) (hc : cut {} false x = (x, [])) :
    pieces x = [x] := by
  rw [pieces, hc]
  simp [hx]

/-- A piece is a stretch of its list, holds a token, and is not cut again. -/
theorem of_mem_pieces {ts x : List Token} (h : x ∈ pieces ts) :
    x ≠ [] ∧ cut {} false x = (x, []) ∧ ∃ lead rest, ts = lead ++ (x ++ rest) := by
  obtain ⟨hmem, hne⟩ := List.mem_filter.1 h
  obtain ⟨hfirst, hlater⟩ := cut_stretch {} false ts
  obtain ⟨later, -, hmap, hts⟩ := exists_commas {} false ts
  refine ⟨by simpa using hne, ?_⟩
  rcases List.mem_cons.1 hmem with rfl | hmem
  · exact ⟨hfirst, [], _, hts⟩
  · refine ⟨hlater x hmem, ?_⟩
    rw [hmap] at hmem
    obtain ⟨s, hs, rfl⟩ := List.mem_map.1 hmem
    obtain ⟨before, behind, rfl⟩ := List.append_of_mem hs
    refine ⟨(cut {} false ts).1 ++ before.flatMap (fun s => s.1 :: s.2) ++ [s.1],
      behind.flatMap fun s => s.1 :: s.2, hts.trans ?_⟩
    simp

/-! ## Pieces read on their own -/

theorem span_modifyHead {f : Token → Token} (hf : KeepsText f) (ts : List Token) :
    Token.span (ts.modifyHead f) = Token.span ts := by
  cases ts with
  | nil => rfl
  | cons t ts => rw [List.modifyHead_cons, Token.span, Token.span, (hf t).2]

/-- The texts of the pieces do not depend on what stands before the first token. -/
theorem map_span_pieces_modifyHead {f : Token → Token} (hf : KeepsText f) (ts : List Token) :
    (pieces (ts.modifyHead f)).map Token.span = (pieces ts).map Token.span := by
  rw [pieces, pieces, hf.cut_eq]
  cases h : (cut {} false ts).1 with
  | nil => rfl
  | cons t x => simp [Token.span, hf t]

theorem map_span_pieces_lexFrom (first : Bool) (s : List Char) :
    (pieces (lexFrom first s).tokens).map Token.span = pieceTexts s := by
  have hflag : KeepsText fun t => { t with opensLine := first || t.gap.contains '\n' } :=
    fun _ => ⟨rfl, rfl⟩
  rw [tokens_lexFrom]
  exact map_span_pieces_modifyHead hflag _

/-- Blanks in front of a list do not matter. -/
theorem pieceTexts_behind {gap : List Char} (hg : ∀ c ∈ gap, isSpace c = true) (s : List Char) :
    pieceTexts (gap ++ s) = pieceTexts s := by
  have htokens : tokens (gap ++ s) = (tokens s).modifyHead (Token.behind gap) := by
    rw [tokens, lex, lexFrom_behind true (splitGap_append_of_isSpace hg s), tokens, lex]
    rcases lexFrom true s with ⟨_ | _, _⟩ <;> rfl
  rw [pieceTexts, htokens, map_span_pieces_modifyHead (keepsText_behind gap), pieceTexts]

/-- A token at the start of a text. -/
def alone (t : Token) : Token :=
  { t with gap := [], opensLine := true }

theorem keepsText_alone : KeepsText alone :=
  fun _ => ⟨rfl, rfl⟩

/-- A piece that is read on its own has the tokens that it has in its list. -/
theorem lex_span {raw : List Char} {lead x rest : List Token}
    (h : tokens raw = lead ++ (x ++ rest)) (hx : x ≠ []) :
    lex (Token.span x) = ⟨x.modifyHead alone, []⟩ := by
  obtain ⟨t, us, rfl⟩ := List.exists_cons_of_ne_nil hx
  have hcut : lex ([] ++ (t.text ++ (Token.render us ++ []))) = ⟨alone t :: us, []⟩ :=
    lex_cut h (Or.inl rfl) (Or.inl rfl)
  simpa [Token.span] using hcut

/-- Whether a text is one piece: it runs from a token through a token, and there is no
    comma at which it is cut. -/
structure IsPiece (p : List Char) : Prop where
  ne_nil : tokens p ≠ []
  span_eq : Token.span (tokens p) = p
  cut_eq : cut {} false (tokens p) = (tokens p, [])

theorem isPiece_of_mem {raw p : List Char} (h : p ∈ pieceTexts raw) : IsPiece p := by
  obtain ⟨x, hx, rfl⟩ := List.mem_map.1 h
  obtain ⟨hne, hcut, lead, rest, hts⟩ := of_mem_pieces hx
  have htokens : tokens (Token.span x) = x.modifyHead alone :=
    congrArg Lexed.tokens (lex_span hts hne)
  refine ⟨?_, ?_, ?_⟩
  · rw [htokens]
    simpa using hne
  · rw [htokens, span_modifyHead keepsText_alone]
  · rw [htokens, keepsText_alone.cut_eq, hcut]

theorem IsPiece.pieceTexts_eq {p : List Char} (h : IsPiece p) : pieceTexts p = [p] := by
  rw [pieceTexts, pieces_of_cut_eq h.ne_nil h.cut_eq, List.map_singleton, h.span_eq]

/-- The pieces of a list are the texts that are one piece. -/
theorem pieceTexts_eq_singleton_iff {p : List Char} : pieceTexts p = [p] ↔ IsPiece p := by
  refine ⟨fun h => ?_, IsPiece.pieceTexts_eq⟩
  have hp : p ∈ pieceTexts p := by
    rw [h]
    exact List.mem_singleton_self p
  exact isPiece_of_mem hp

/-! ## What is left out -/

/-- Stretches of a text, by the byte offsets at which they start and end, that keep all of
    the tokens `ts` of the text but commas. -/
structure LeavesCommas (raw : List Char) (ts : List Located) (spans : List (Nat × Nat)) :
    Prop where
  /-- No two stretches overlap, and they stand in the order of the text. -/
  ordered : spans.Pairwise fun s u => s.2 ≤ u.1
  /-- A stretch is not empty and runs from the start of a token to the end of a token. -/
  edges : ∀ s ∈ spans, s.1 < s.2 ∧ (∃ t ∈ ts, s.1 = t.start) ∧ ∃ t ∈ ts, s.2 = t.stop
  /-- Without some of its commas the text has the tokens of the stretches, each lexed on its
      own, but for the lines that these come to open. -/
  tokens_eq : ∃ kept : List Located, kept.Sublist ts ∧
    (∀ t ∈ ts, t ∈ kept ∨ t.kind = .punct ∧ t.text = [',']) ∧
    kept.map Located.opening
      = (spans.flatMap fun s =>
          (located (slice raw s.1 s.2)).map (Located.move s.1)).map Located.opening

theorem leavesCommas_nil (raw : List Char) : LeavesCommas raw [] [] :=
  ⟨.nil, by simp, [], .slnil, by simp, rfl⟩

/-- One more comma is left out. -/
theorem LeavesCommas.cons {raw : List Char} {ts : List Located} {spans : List (Nat × Nat)}
    (h : LeavesCommas raw ts spans) {c : Located} (hc : c.kind = .punct ∧ c.text = [',']) :
    LeavesCommas raw (c :: ts) spans := by
  obtain ⟨kept, hsub, hcomma, heq⟩ := h.tokens_eq
  refine ⟨h.ordered, fun s hs => ?_, kept, hsub.cons c, ?_, heq⟩
  · obtain ⟨hlt, ⟨t, ht, hstart⟩, u, hu, hstop⟩ := h.edges s hs
    exact ⟨hlt, ⟨t, List.mem_cons_of_mem c ht, hstart⟩, u, List.mem_cons_of_mem c hu, hstop⟩
  · intro t ht
    rcases List.mem_cons.1 ht with rfl | ht
    · exact Or.inr hc
    · exact hcomma t ht

/-- The text from the first through the last of some tokens, by its offsets. -/
theorem slice_span {raw : List Char} {lead us rest : List Token} {t : Token}
    (h : tokens raw = lead ++ (t :: us ++ rest)) :
    slice raw (byteSize (Token.render lead ++ t.gap)) (byteSize (Token.render (lead ++ t :: us)))
      = Token.span (t :: us) := by
  have htext := Lexed.text_lex raw
  rw [Lexed.text, show (lex raw).tokens = _ from h] at htext
  have hslice := slice_append (Token.render lead ++ t.gap) (Token.span (t :: us))
    (Token.render rest ++ (lex raw).tail)
  have hwhole : Token.render lead ++ t.gap ++ (Token.span (t :: us) ++
      (Token.render rest ++ (lex raw).tail)) = raw := by
    simpa [Token.span] using htext
  have hstop : byteSize (Token.render lead ++ t.gap) + byteSize (Token.span (t :: us))
      = byteSize (Token.render (lead ++ t :: us)) := by
    rw [← byteSize_append]
    simp [Token.span]
  rwa [hwhole, hstop] at hslice

theorem exists_stop_eq (n : Nat) {ts : List Token} (h : ts ≠ []) :
    ∃ x ∈ locateFrom n ts, x.stop = n + byteSize (Token.render ts) := by
  obtain rfl | ⟨us, t, rfl⟩ := ts.eq_nil_or_concat
  · exact absurd rfl h
  · rw [List.concat_eq_append, locateFrom_append, Token.render_append]
    refine ⟨_, List.mem_append_right _ (List.mem_singleton_self _), ?_⟩
    simp [Token.locate, Nat.add_assoc]

/-- A stretch of tokens in front of those that are left is kept. -/
theorem LeavesCommas.append {raw : List Char} {lead x rest : List Token}
    {spans : List (Nat × Nat)} (hraw : tokens raw = lead ++ (x ++ rest))
    (h : LeavesCommas raw (locateFrom (byteSize (Token.render (lead ++ x))) rest) spans) :
    ∃ front, ([x].filter (!·.isEmpty)).map Token.span
        = front.map (fun s => slice raw s.1 s.2) ∧
      LeavesCommas raw (locateFrom (byteSize (Token.render lead)) (x ++ rest))
        (front ++ spans) := by
  cases x with
  | nil => exact ⟨[], rfl, by simpa using h⟩
  | cons t us =>
    have hsize : byteSize (Token.render lead) + byteSize (Token.render (t :: us))
        = byteSize (Token.render (lead ++ t :: us)) := by
      rw [Token.render_append, byteSize_append]
    have hts : locateFrom (byteSize (Token.render lead)) (t :: us ++ rest)
        = locateFrom (byteSize (Token.render lead)) (t :: us)
          ++ locateFrom (byteSize (Token.render (lead ++ t :: us))) rest := by
      rw [locateFrom_append, hsize]
    have hmoved := located_cut hraw (Or.inl rfl) (List.append_nil t.gap).symm (Or.inl rfl)
    rw [List.append_nil] at hmoved
    have hpos : 0 < byteSize t.text :=
      byteSize_pos ((Lexed.lossless_iff.2 rfl).fits lead t (us ++ rest) hraw).form.ne_nil
    obtain ⟨kept, hsub, hcomma, heq⟩ := h.tokens_eq
    refine ⟨[(byteSize (Token.render lead ++ t.gap), byteSize (Token.render (lead ++ t :: us)))],
      ?_, ?_, ?_, ?_⟩
    · rw [List.map_singleton, slice_span hraw]
      rfl
    · refine List.pairwise_cons.2 ⟨fun u hu => ?_, h.ordered⟩
      -- what comes later starts with a token behind this stretch
      obtain ⟨-, ⟨v, hv, hstart⟩, -⟩ := h.edges u hu
      rw [hstart]
      exact le_start_of_mem_locateFrom hv
    · intro s hs
      rw [hts]
      rcases List.mem_cons.1 hs with rfl | hs
      · obtain ⟨v, hv, hstop⟩ :=
          exists_stop_eq (byteSize (Token.render lead)) (List.cons_ne_nil t us)
        refine ⟨?_, ⟨_, List.mem_append_left _ List.mem_cons_self, ?_⟩, v,
          List.mem_append_left _ hv, ?_⟩
        · rw [← hsize]
          simp only [byteSize_append, Token.render_cons]
          omega
        · simp [Token.locate]
        · rw [hstop, hsize]
      · obtain ⟨hlt, ⟨v, hv, hstart⟩, w, hw, hstop⟩ := h.edges s hs
        exact ⟨hlt, ⟨v, List.mem_append_right _ hv, hstart⟩, w, List.mem_append_right _ hw, hstop⟩
    · refine ⟨locateFrom (byteSize (Token.render lead)) (t :: us) ++ kept, ?_, ?_, ?_⟩
      · rw [hts]
        exact (List.Sublist.refl _).append hsub
      · intro v hv
        rw [hts] at hv
        rcases List.mem_append.1 hv with hv | hv
        · exact Or.inl (List.mem_append_left _ hv)
        · exact (hcomma v hv).imp_left (List.mem_append_right _)
      · rw [List.singleton_append, List.flatMap_cons, List.map_append, List.map_append, heq, hmoved]
        rfl

/-- Cutting a text at its commas leaves out these commas and nothing else. -/
theorem exists_leavesCommas {raw : List Char} {lead x : List Token}
    {later : List (Token × List Token)} (hcomma : ∀ s ∈ later, s.1.isPunct ',' = true)
    (hraw : tokens raw = lead ++ (x ++ later.flatMap fun s => s.1 :: s.2)) :
    ∃ spans, ((x :: later.map Prod.snd).filter (!·.isEmpty)).map Token.span
        = spans.map (fun s => slice raw s.1 s.2) ∧
      LeavesCommas raw (locateFrom (byteSize (Token.render lead))
        (x ++ later.flatMap fun s => s.1 :: s.2)) spans := by
  induction later generalizing lead x with
  | nil =>
    obtain ⟨front, hfront, hleaves⟩ := LeavesCommas.append hraw (leavesCommas_nil raw)
    exact ⟨front, hfront, by simpa using hleaves⟩
  | cons s later ih =>
    obtain ⟨c, y⟩ := s
    have hc : c.isPunct ',' = true := hcomma (c, y) List.mem_cons_self
    have hraw' : tokens raw
        = (lead ++ x ++ [c]) ++ (y ++ later.flatMap fun s => s.1 :: s.2) := by
      rw [hraw]
      simp
    obtain ⟨spans, hspans, hleaves⟩ := ih (fun s hs => hcomma s (List.mem_cons_of_mem _ hs)) hraw'
    have hbehind : LeavesCommas raw (locateFrom (byteSize (Token.render (lead ++ x)))
        (c :: (y ++ later.flatMap fun s => s.1 :: s.2))) spans := by
      simp only [Token.isPunct, Bool.and_eq_true, decide_eq_true_eq] at hc
      rw [Token.render_append, byteSize_append] at hleaves
      rw [locateFrom_cons]
      refine LeavesCommas.cons ?_ hc
      simpa [Nat.add_assoc] using hleaves
    obtain ⟨front, hfront, hall⟩ := LeavesCommas.append hraw hbehind
    refine ⟨front ++ spans, ?_, hall⟩
    rw [List.map_append, ← hfront, ← hspans, List.map_cons, ← List.map_append, ← List.filter_append]
    rfl

/-! ## Pieces put together -/

/-- Behind the last token of a text that ends with a token stands nothing. -/
theorem tail_eq_nil {p : List Char} (h : Token.span (tokens p) = p) : (lex p).tail = [] := by
  have hlen := congrArg List.length (Lexed.text_lex p)
  have hspan := congrArg List.length h
  rw [Lexed.text, List.length_append] at hlen
  rw [← List.length_eq_zero_iff]
  change (Token.render (tokens p)).length + _ = _ at hlen
  cases hts : tokens p with
  | nil =>
    rw [hts] at hspan hlen
    simp only [Token.span, Token.render_nil, List.length_nil] at hspan hlen
    omega
  | cons t ts =>
    rw [hts] at hspan hlen
    simp only [Token.span, Token.render_cons, List.length_append] at hspan hlen
    omega

/-- In front of a comma, a text that is one piece stays together; whether the comma cuts
    depends on what is open behind the text. -/
theorem IsPiece.exists_cut_eq {p : List Char} (h : IsPiece p)
    (hlast : ∀ t ∈ (tokens p).getLast?, t.Terminated) (r : List Char) :
    ∃ b, ∃ c : Token, c.isPunct ',' = true ∧
      cut {} false (tokens (p ++ ',' :: r))
        = (tokens p ++
            (cut (nesting {} false (tokens p)) b (c :: (lexFrom false r).tokens)).1,
          (cut (nesting {} false (tokens p)) b (c :: (lexFrom false r).tokens)).2) := by
  obtain ⟨c, hc, hkind, htokens⟩ : ∃ c : Token, c.text = [','] ∧ c.kind = .punct ∧
      tokens (p ++ ',' :: r) = tokens p ++ c :: (lexFrom false r).tokens :=
    ⟨_, rfl, rfl, congrArg Lexed.tokens
      (lexFrom_append_of_terminated (tail_eq_nil h.span_eq) hlast (by decide) r)⟩
  have hmark : ∀ t ∈ (c :: (lexFrom false r).tokens).head?,
      t.isPunct '<' = false ∧ t.isPunct '=' = false := by
    intro t ht
    obtain rfl := Option.some.inj ht
    simp [Token.isPunct, hc]
  obtain ⟨b, hb⟩ := exists_cut_append h.cut_eq hmark
  refine ⟨b, c, ?_, ?_⟩
  · simp [Token.isPunct, hc, hkind]
  · rw [htokens, hb]

/-- A text that ends closed is a piece of its own in front of a comma. -/
theorem IsPiece.pieceTexts_append {p : List Char} (h : IsPiece p)
    (hlast : ∀ t ∈ (tokens p).getLast?, t.Terminated)
    (hn : nesting {} false (tokens p) = {}) (r : List Char) :
    pieceTexts (p ++ ',' :: r) = p :: pieceTexts r := by
  obtain ⟨b, c, hc, hcut⟩ := h.exists_cut_eq hlast r
  have hcomma : cut {} b (c :: (lexFrom false r).tokens)
      = ([], (cut {} false (lexFrom false r).tokens).1 ::
          (cut {} false (lexFrom false r).tokens).2) := by
    rw [cut, if_pos (by simp [hc, Nesting.isClosed])]
  rw [hn, hcomma, List.append_nil] at hcut
  have hpieces : pieces (tokens (p ++ ',' :: r))
      = tokens p :: pieces (lexFrom false r).tokens := by
    rw [pieces, hcut, List.filter_cons_of_pos (by simpa using h.ne_nil), pieces]
  rw [pieceTexts, hpieces, List.map_cons, h.span_eq, map_span_pieces_lexFrom]

/-- A text that leaves something open grows together with what stands behind a comma. -/
theorem IsPiece.exists_pieceTexts_append {p : List Char} (h : IsPiece p)
    (hlast : ∀ t ∈ (tokens p).getLast?, t.Terminated)
    (hn : nesting {} false (tokens p) ≠ {}) (r : List Char) :
    ∃ q qs, pieceTexts (p ++ ',' :: r) = q :: qs ∧ p.length < q.length := by
  obtain ⟨b, c, hc, hcut⟩ := h.exists_cut_eq hlast r
  have hopen : (nesting {} false (tokens p)).isClosed = false := by
    rw [Bool.eq_false_iff]
    exact fun hclosed => hn (eq_of_isClosed hclosed)
  rw [cut, if_neg (by simp [hopen])] at hcut
  rw [pieceTexts, pieces, hcut, List.filter_cons_of_pos (by simp), List.map_cons]
  refine ⟨_, _, rfl, ?_⟩
  obtain ⟨t, ts, hts⟩ := List.exists_cons_of_ne_nil h.ne_nil
  have htext : c.text = [','] := by
    simp only [Token.isPunct, Bool.and_eq_true, decide_eq_true_eq] at hc
    exact hc.2
  have hlen := congrArg List.length h.span_eq
  rw [hts] at hlen ⊢
  simp only [Token.span, List.cons_append, Token.render_append, Token.render_cons,
    List.length_append, htext, List.length_singleton] at hlen ⊢
  omega

theorem pieceTexts_nil : pieceTexts [] = [] := by
  have h : lex [] = ⟨[], []⟩ := lexFrom_of_splitGap_nil true (by simp [splitGap])
  rw [pieceTexts, tokens, h]
  rfl

/-- Joining pieces with commas is undone by cutting, exactly if each of them but the last
    one closes what it opens. -/
theorem pieceTexts_intercalate_iff {gap : List Char} (hg : ∀ c ∈ gap, isSpace c = true)
    {ps : List (List Char)} (hps : ∀ p ∈ ps, IsPiece p)
    (hlast : ∀ p ∈ ps.dropLast, ∀ t ∈ (tokens p).getLast?, t.Terminated) :
    pieceTexts (List.intercalate (',' :: gap) ps) = ps ↔
      ∀ p ∈ ps.dropLast, nesting {} false (tokens p) = {} := by
  induction ps with
  | nil => exact iff_of_true pieceTexts_nil (by simp)
  | cons p ps ih =>
    have hp := hps p List.mem_cons_self
    cases ps with
    | nil => simp [hp.pieceTexts_eq]
    | cons q ps =>
      have hpl : ∀ t ∈ (tokens p).getLast?, t.Terminated := hlast p List.mem_cons_self
      have ih' := ih (fun x hx => hps x (List.mem_cons_of_mem p hx))
        fun x hx => hlast x (List.mem_cons_of_mem p hx)
      rw [List.intercalate_cons_cons, List.append_assoc, List.cons_append, List.dropLast_cons_cons,
        List.forall_mem_cons]
      by_cases hn : nesting {} false (tokens p) = {}
      · rw [hp.pieceTexts_append hpl hn, pieceTexts_behind hg, List.cons_inj_right, ih']
        exact (and_iff_right hn).symm
      · obtain ⟨x, xs, hx, hlt⟩ := hp.exists_pieceTexts_append hpl hn
          (gap ++ List.intercalate (',' :: gap) (q :: ps))
        rw [hx]
        refine iff_of_false ?_ fun hall => hn hall.1
        intro heq
        rw [(List.cons.inj heq).1] at hlt
        exact Nat.lt_irrefl _ hlt

/-- Whether a text ends outside brackets, angle pairs and literals. -/
structure EndsClosed (p : List Char) : Prop where
  nesting_eq : nesting {} false (tokens p) = {}
  terminated : ∀ t ∈ (tokens p).getLast?, t.Terminated

/-- **Cutting and joining.** The pieces of a list are stretches of it that leave out commas
    and nothing else. A piece that is cut again stays one piece. Texts that are one piece
    each, joined by commas, are cut into these texts again, if each of them but the last
    one ends closed. -/
theorem pieceTexts_lossless (raw : List Char) :
    (∃ spans, pieceTexts raw = spans.map (fun s => slice raw s.1 s.2) ∧
      LeavesCommas raw (located raw) spans) ∧
    (∀ p ∈ pieceTexts raw, pieceTexts p = [p]) ∧
    ∀ ps : List (List Char), (∀ p ∈ ps, pieceTexts p = [p]) → (∀ p ∈ ps.dropLast, EndsClosed p) →
      pieceTexts (List.intercalate [','] ps) = ps := by
  refine ⟨?_, fun p hp => (isPiece_of_mem hp).pieceTexts_eq, fun ps hps hclosed => ?_⟩
  · obtain ⟨later, hcomma, hlater, hts⟩ := exists_commas {} false (tokens raw)
    have hraw : tokens raw = [] ++ (_ ++ later.flatMap fun s => s.1 :: s.2) := hts
    obtain ⟨spans, hspans, hleaves⟩ := exists_leavesCommas hcomma hraw
    rw [← hlater] at hspans
    rw [← hts] at hleaves
    exact ⟨spans, hspans, hleaves⟩
  · refine (pieceTexts_intercalate_iff (by simp) (fun p hp => ?_) fun p hp => ?_).2 fun p hp => ?_
    · exact pieceTexts_eq_singleton_iff.1 (hps p hp)
    · exact (hclosed p hp).terminated
    · exact (hclosed p hp).nesting_eq

/-- A bracket that closes nothing, a literal with a comma in it, and an angle pair that the
    last piece leaves open. -/
theorem pieceTexts_lossless_sample :
    EndsClosed "a]".toList ∧ EndsClosed "b = \",\"".toList ∧
      pieceTexts "a],b = \",\",c<d, e".toList
        = ["a]".toList, "b = \",\"".toList, "c<d, e".toList] := by
  have hbracket : EndsClosed "a]".toList := by
    refine ⟨by decide +kernel, fun t ht => ?_⟩
    have hlast : (tokens "a]".toList).getLast? = some ⟨[], .punct, [']'], false⟩ := by
      decide +kernel
    rw [hlast] at ht
    obtain rfl := Option.some.inj ht
    simp [Token.Terminated]
  have hliteral : EndsClosed "b = \",\"".toList := by
    refine ⟨by decide +kernel, fun t ht _ => ?_⟩
    have hlast : (tokens "b = \",\"".toList).getLast?
        = some ⟨[' '], .str, ['"', ',', '"'], false⟩ := by
      decide +kernel
    rw [hlast] at ht
    obtain rfl := Option.some.inj ht
    exact ⟨'"', [','], .plain (by decide) (by decide) (by decide) .nil, rfl⟩
  refine ⟨hbracket, hliteral, (pieceTexts_lossless []).2.2
    ["a]".toList, "b = \",\"".toList, "c<d, e".toList] (by decide +kernel) fun p hp => ?_⟩
  rcases List.mem_cons.1 hp with rfl | hp
  · exact hbracket
  · obtain rfl := List.mem_singleton.1 hp
    exact hliteral

/-! ## Angles inside brackets -/

/-- The brackets between which a list is not cut. -/
def bracketPairs : List (Char × Char) :=
  [('(', ')'), ('[', ']'), ('{', '}')]

/-- How many brackets are open after a token. -/
def bracketsAfter (d : Nat) (t : Token) : Nat :=
  if t.isPunct '(' || t.isPunct '[' || t.isPunct '{' then d + 1
  else if t.isPunct ')' || t.isPunct ']' || t.isPunct '}' then d - 1
  else d

theorem brackets_after (n : Nesting) (a : Bool) (t : Token) (rest : List Token) :
    (n.after a t rest).brackets = bracketsAfter n.brackets t := by
  unfold Nesting.after bracketsAfter
  split_ifs <;> rfl

theorem brackets_nesting (n : Nesting) (a : Bool) (ts : List Token) :
    (nesting n a ts).brackets = ts.foldl bracketsAfter n.brackets := by
  induction ts generalizing n a with
  | nil => rfl
  | cons t ts ih => rw [nesting, ih, brackets_after, List.foldl_cons]

/-- Where no bracket closes more than was opened, the brackets that are open are those of
    each kind. -/
theorem foldl_bracketsAfter {ts : List Token} {d₁ d₂ d₃ e₁ e₂ e₃ : Nat}
    (h₁ : level? '(' ')' d₁ ts = some e₁) (h₂ : level? '[' ']' d₂ ts = some e₂)
    (h₃ : level? '{' '}' d₃ ts = some e₃) :
    ts.foldl bracketsAfter (d₁ + d₂ + d₃) = e₁ + e₂ + e₃ := by
  induction ts generalizing d₁ d₂ d₃ with
  | nil => simp_all [level?]
  | cons t ts ih =>
    -- a token opens or closes a bracket of one kind at most
    rw [List.foldl_cons]
    grind [level?, bracketsAfter, Token.isPunct]

/-- A list is not cut at a comma that stands inside brackets. -/
theorem cut_eq_of_brackets {n : Nesting} {a : Bool} {ts : List Token}
    (h : ∀ lead t rest, ts = lead ++ t :: rest → t.isPunct ',' = true →
      lead.foldl bracketsAfter n.brackets ≠ 0) : cut n a ts = (ts, []) := by
  induction ts generalizing n a with
  | nil => rfl
  | cons t ts ih =>
    have hcut : ¬ (t.isPunct ',' && n.isClosed) = true := by
      intro hc
      obtain ⟨hcomma, hclosed⟩ := Bool.and_eq_true_iff.1 hc
      refine h [] t ts rfl hcomma ?_
      rw [eq_of_isClosed hclosed]
      rfl
    have hlater : cut (n.after a t ts) (t.kind = .ident) ts = (ts, []) := by
      refine ih fun lead u rest he hu => ?_
      rw [brackets_after]
      exact h (t :: lead) u rest (by rw [he, List.cons_append]) hu
    rw [cut, if_neg hcut, hlater]

/-- A text from a token through a token that closes its literals and its brackets, and that
    has angles and commas inside brackets only. -/
structure Sheltered (p : List Char) : Prop where
  ne_nil : tokens p ≠ []
  span_eq : Token.span (tokens p) = p
  terminated : ∀ t ∈ tokens p, t.Terminated
  balanced : ∀ b ∈ bracketPairs, Source.Balanced b.1 b.2 (tokens p)
  /-- A group is open where the token stands; as the brackets are balanced, it is closed
      behind the token. -/
  inside : ∀ i : Fin (tokens p).length,
    ((tokens p).get i).isPunct '<' ∨ ((tokens p).get i).isPunct '>' ∨
      ((tokens p).get i).isPunct ',' →
    ∃ b ∈ bracketPairs, level? b.1 b.2 0 ((tokens p).take i) ≠ some 0

namespace Sheltered

variable {p : List Char}

/-- How many brackets of each kind are open somewhere in the text. -/
theorem exists_levels (h : Sheltered p) {lead rest : List Token} (hts : tokens p = lead ++ rest) :
    ∃ d₁ d₂ d₃, level? '(' ')' 0 lead = some d₁ ∧ level? '[' ']' 0 lead = some d₂ ∧
      level? '{' '}' 0 lead = some d₃ := by
  have hlevel : ∀ b ∈ bracketPairs, ∃ d, level? b.1 b.2 0 lead = some d := by
    intro b hb
    have hbalanced := h.balanced b hb
    rw [Source.Balanced, hts, level?_append] at hbalanced
    obtain ⟨d, hd, -⟩ := Option.bind_eq_some_iff.1 hbalanced
    exact ⟨d, hd⟩
  obtain ⟨d₁, h₁⟩ := hlevel ('(', ')') (by decide)
  obtain ⟨d₂, h₂⟩ := hlevel ('[', ']') (by decide)
  obtain ⟨d₃, h₃⟩ := hlevel ('{', '}') (by decide)
  exact ⟨d₁, d₂, d₃, h₁, h₂, h₃⟩

theorem isPiece (h : Sheltered p) : IsPiece p := by
  refine ⟨h.ne_nil, h.span_eq, cut_eq_of_brackets fun lead t rest hts hcomma => ?_⟩
  have hlt : lead.length < (tokens p).length := by
    rw [hts, List.length_append, List.length_cons]
    omega
  have hget : (tokens p).get ⟨lead.length, hlt⟩ = t := by
    simp [hts]
  have htake : (tokens p).take lead.length = lead := by
    rw [hts, List.take_left]
  obtain ⟨b, hb, hlevel⟩ := h.inside ⟨lead.length, hlt⟩ (by rw [hget]; exact .inr (.inr hcomma))
  rw [htake] at hlevel
  obtain ⟨d₁, d₂, d₃, h₁, h₂, h₃⟩ := h.exists_levels hts
  have hopen : d₁ ≠ 0 ∨ d₂ ≠ 0 ∨ d₃ ≠ 0 := by
    simp only [bracketPairs, List.mem_cons, List.not_mem_nil, or_false] at hb
    rcases hb with rfl | rfl | rfl
    · exact .inl fun h0 => hlevel (h0 ▸ h₁)
    · exact .inr (.inl fun h0 => hlevel (h0 ▸ h₂))
    · exact .inr (.inr fun h0 => hlevel (h0 ▸ h₃))
  have hsum : lead.foldl bracketsAfter 0 = d₁ + d₂ + d₃ := foldl_bracketsAfter h₁ h₂ h₃
  show lead.foldl bracketsAfter 0 ≠ 0
  omega

/-- At the end of the text only angle pairs may be open. -/
theorem nesting_eq_iff (h : Sheltered p) :
    nesting {} false (tokens p) = {} ↔ (nesting {} false (tokens p)).angles = 0 := by
  have hbrackets : (nesting {} false (tokens p)).brackets = 0 := by
    rw [brackets_nesting]
    exact foldl_bracketsAfter (h.balanced ('(', ')') (by decide))
      (h.balanced ('[', ']') (by decide)) (h.balanced ('{', '}') (by decide))
  refine ⟨fun hn => by rw [hn], fun hn => ?_⟩
  rw [show nesting {} false (tokens p) = ⟨_, _⟩ from rfl, hbrackets, hn]

end Sheltered

/-- **Angles inside brackets.** Texts whose angles and commas all stand inside brackets,
    joined by commas, are cut into these texts again exactly if none of them but the last
    one leaves an angle pair open. A comparison such as `(A<B)` opens one that its brackets
    do not close, and so it takes in the texts behind it. -/
theorem pieceTexts_join_iff {ps : List (List Char)} (h : ∀ p ∈ ps, Sheltered p) :
    pieceTexts (List.intercalate [',', ' '] ps) = ps ↔
      ∀ p ∈ ps.dropLast, (nesting {} false (tokens p)).angles = 0 := by
  have hdrop : ∀ p ∈ ps.dropLast, Sheltered p := fun p hp => h p (List.dropLast_subset ps hp)
  rw [pieceTexts_intercalate_iff (by decide) (fun p hp => (h p hp).isPiece)
    fun p hp t ht => (hdrop p hp).terminated t (List.mem_of_getLast? ht)]
  exact forall₂_congr fun p hp => (hdrop p hp).nesting_eq_iff

theorem pieceTexts_join_iff_comparison :
    (∀ p ∈ ["int a = (A<B)".toList, "int b".toList], Sheltered p) ∧
      pieceTexts "int a = (A<B), int b".toList ≠ ["int a = (A<B)".toList, "int b".toList] ∧
      pieceTexts "int a = (A<B), int b".toList = ["int a = (A<B), int b".toList] := by
  have hsheltered : ∀ p ∈ ["int a = (A<B)".toList, "int b".toList], Sheltered p := by
    have hkind : ∀ p ∈ ["int a = (A<B)".toList, "int b".toList], ∀ t ∈ tokens p,
        ¬ (t.kind = .str ∨ t.kind = .char) := by
      decide +kernel
    intro p hp
    refine ⟨?_, ?_, fun t ht hliteral => absurd hliteral (hkind p hp t ht), ?_, ?_⟩
    all_goals
      revert p
      decide +kernel
  refine ⟨hsheltered, fun heq => ?_, by decide +kernel⟩
  have hangles := (pieceTexts_join_iff hsheltered).1 heq "int a = (A<B)".toList List.mem_cons_self
  exact absurd hangles (by decide +kernel)

end PawnApi.Param
