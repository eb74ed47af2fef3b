/-
  PawnApi.Proofs.Spelling

  Tokens that are written out and read back.

  `Spells ts after` says that the text of the tokens `ts`, in front of the text `after`,
  is read as these tokens and leaves the rest to `after`, by the lexer, by the scan and
  by the outline alike. Such stretches can be put behind each other (`Spells.append`), so
  a printed declaration is spelled piece by piece: words, marks, closed texts without
  comments, and bodies between braces.
-/
import PawnApi.Proofs.Bodies

namespace PawnApi.Source

open PawnApi.Declaration (depthAfter foldl_of_level?)

/-- What holds of every character of a text is decided along the text, and not over all
    the characters there are. -/
instance decidableForallMem (p : Char → Prop) [DecidablePred p] (s : List Char) :
    Decidable (∀ c ∈ s, p c) :=
  List.decidableBAll p s

instance decidableForallMem? (p : Char → Prop) [DecidablePred p] (o : Option Char) :
    Decidable (∀ c ∈ o, p c) :=
  Option.decidableForallMem o

/-! ## Stretches of tokens -/

/-- The tokens `ts`, written in front of `after`, are read back as they are. -/
structure Spells (ts : List Token) (after : List Char) : Prop where
  lexFrom_eq : lexFrom false (Token.render ts ++ after) = (lexFrom false after).after ts
  run_eq : ∀ d, Scan.run ⟨.code, d⟩ (Token.render ts ++ after)
    = Scan.run ⟨.code, ts.foldl depthAfter d⟩ after
  outlineFrom_eq : ∀ d, outlineFrom d (Token.render ts ++ after)
    = (outlineFrom (ts.foldl depthAfter d) after).push (Token.render ts)

namespace Spells

variable {ts us : List Token} {after : List Char}

theorem nil (after : List Char) : Spells [] after :=
  ⟨rfl, fun _ => rfl, fun _ => rfl⟩

theorem append (h₁ : Spells ts (Token.render us ++ after)) (h₂ : Spells us after) :
    Spells (ts ++ us) after := by
  refine ⟨?_, fun d => ?_, fun d => ?_⟩
  · rw [Token.render_append, List.append_assoc, h₁.lexFrom_eq, h₂.lexFrom_eq]
    simp [Lexed.after]
  · rw [Token.render_append, List.append_assoc, h₁.run_eq, h₂.run_eq, List.foldl_append]
  · rw [Token.render_append, List.append_assoc, h₁.outlineFrom_eq, h₂.outlineFrom_eq,
      Outline.push_push, List.foldl_append]

theorem cons {t : Token} (h₁ : Spells [t] (Token.render ts ++ after)) (h₂ : Spells ts after) :
    Spells (t :: ts) after :=
  append h₁ h₂

theorem flatMap {α : Type} {f : α → List Token} (xs : List α)
    (h : ∀ x ∈ xs, ∀ after, Spells (f x) after) (after : List Char) :
    Spells (xs.flatMap f) after := by
  induction xs with
  | nil => exact nil after
  | cons x xs ih =>
    rw [List.flatMap_cons]
    exact append (h x (by simp) _) (ih fun y hy => h y (by simp [hy]))

end Spells

/-! ## Plain characters -/

/-- Outside comments and literals an outline only counts braces. -/
theorem outlineFrom_cons_of_ne {c : Char} (hs : c ≠ '/') (hq : c ≠ '"') (ha : c ≠ '\'') (d : Nat)
    (r : List Char) : outlineFrom d (c :: r) = (outlineFrom (braceDepth d c) r).push [c] := by
  rw [outlineFrom_cons d (opensComment_of_ne hs r), if_neg (by simp [hq, ha])]

theorem outlineFrom_append_of_plain {x : List Char}
    (h : ∀ c ∈ x, c ≠ '/' ∧ c ≠ '"' ∧ c ≠ '\'' ∧ c ≠ '{' ∧ c ≠ '}') (d : Nat) (y : List Char) :
    outlineFrom d (x ++ y) = (outlineFrom d y).push x := by
  induction x with
  | nil => rfl
  | cons c x ih =>
    obtain ⟨h₁, h₂, h₃, h₄, h₅⟩ := h c (by simp)
    have hd : braceDepth d c = d := by simp [braceDepth, h₄, h₅]
    rw [List.cons_append, outlineFrom_cons_of_ne h₁ h₂ h₃, hd,
      ih fun e he => h e (by simp [he]), Outline.push_push]
    rfl

/-! ## Gaps -/

section Gap

variable {gap : List Char} (hg : ∀ c ∈ gap, isSpace c = true)

include hg

theorem splitGap_append_of_isSpace (s : List Char) :
    splitGap (gap ++ s) = (gap ++ (splitGap s).1, (splitGap s).2) := by
  induction gap with
  | nil => rfl
  | cons c gap ih =>
    rw [List.cons_append, splitGap_cons_of_isSpace (hg c (by simp)),
      ih fun e he => hg e (by simp [he])]
    rfl

theorem Scan.run_of_isSpace (d : Nat) (s : List Char) :
    Scan.run ⟨.code, d⟩ (gap ++ s) = Scan.run ⟨.code, d⟩ s := by
  induction gap with
  | nil => rfl
  | cons c gap ih =>
    rw [List.cons_append, Scan.run_cons, Scan.next_of_isSpace (hg c (by simp))]
    exact ih fun e he => hg e (by simp [he])

theorem outlineFrom_append_of_isSpace (d : Nat) (s : List Char) :
    outlineFrom d (gap ++ s) = (outlineFrom d s).push gap := by
  refine outlineFrom_append_of_plain (fun c hc => ?_) d s
  have hs := hg c hc
  refine ⟨?_, ?_, ?_, ?_, ?_⟩ <;>
  · rintro rfl
    simp [isSpace] at hs

/-- A gap may be put in front of a spelling. -/
theorem Spells.behind {t : Token} {ts : List Token} {after : List Char}
    (h : Spells (t :: ts) after) : Spells (t.behind gap :: ts) after := by
  have hr : Token.render (t.behind gap :: ts) = gap ++ Token.render (t :: ts) := by
    simp [Token.behind]
  refine ⟨?_, fun d => ?_, fun d => ?_⟩
  · rw [hr, List.append_assoc, lexFrom_behind false (splitGap_append_of_isSpace hg _), h.lexFrom_eq]
    rfl
  · rw [hr, List.append_assoc, Scan.run_of_isSpace hg, h.run_eq]
    rfl
  · rw [hr, List.append_assoc, outlineFrom_append_of_isSpace hg, h.outlineFrom_eq,
      Outline.push_push]
    rfl

end Gap

/-! ## Words and marks -/

/-- Whether a text is a word: letters, digits and underscores. -/
def IsWord (w : List Char) : Prop :=
  w ≠ [] ∧ ∀ c ∈ w, isIdentChar c = true

instance (w : List Char) : Decidable (IsWord w) :=
  inferInstanceAs (Decidable (_ ∧ _))

/-- What a word is: an identifier, unless it starts with a digit. -/
def wordKind (w : List Char) : TokenKind :=
  if w.head?.any isLetter then .ident else .number

/-- A word behind a gap. -/
def word (gap w : List Char) : Token :=
  ⟨gap, wordKind w, w, gap.contains '\n'⟩

/-- A mark behind a gap. -/
def mark (gap : List Char) (c : Char) : Token :=
  ⟨gap, .punct, [c], gap.contains '\n'⟩

/-- Whether no word runs on into a text. -/
def Breaks (after : List Char) : Prop :=
  ∀ c ∈ after.head?, isNumberChar c = false

theorem Breaks.append {x y : List Char} (hx : Breaks x) (hy : Breaks y) : Breaks (x ++ y) := by
  cases x with
  | nil => exact hy
  | cons c x => exact hx

theorem breaks_cons {c : Char} (h : isNumberChar c = false) (r : List Char) : Breaks (c :: r) := by
  intro e he
  obtain rfl : c = e := by simpa using he
  exact h

theorem isNumberChar_of_isMark {c : Char} (h : isMark c = true) : isNumberChar c = false :=
  (isMark_iff.1 h).1.1.1.1.1

@[simp] theorem isPunct_word (gap w : List Char) (c : Char) : (word gap w).isPunct c = false := by
  unfold word wordKind Token.isPunct
  split <;> rfl

@[simp] theorem isPunct_mark (gap : List Char) (c e : Char) :
    (mark gap c).isPunct e = decide (c = e) := by
  simp [mark, Token.isPunct]

@[simp] theorem kind_word (gap w : List Char) : (word gap w).kind = wordKind w := rfl

@[simp] theorem kind_mark (gap : List Char) (c : Char) : (mark gap c).kind = .punct := rfl

@[simp] theorem gap_word (gap w : List Char) : (word gap w).gap = gap := rfl

@[simp] theorem text_word (gap w : List Char) : (word gap w).text = w := rfl

@[simp] theorem gap_mark (gap : List Char) (c : Char) : (mark gap c).gap = gap := rfl

@[simp] theorem text_mark (gap : List Char) (c : Char) : (mark gap c).text = [c] := rfl

theorem render_word (gap w : List Char) : Token.render [word gap w] = gap ++ w := by
  simp

theorem render_mark (gap : List Char) (c : Char) : Token.render [mark gap c] = gap ++ [c] := by
  simp

theorem splitToken_word {c : Char} {r after : List Char} (hw : IsWord (c :: r))
    (ha : Breaks after) : splitToken c (r ++ after) = (wordKind (c :: r), r, after) := by
  have hn : ∀ e ∈ c :: r, isNumberChar e = true :=
    fun e he => isNumberChar_of_isIdentChar (hw.2 e he)
  have hd : Detached (c :: r) after := fun _ _ e he _ => ha e he
  have hall : ∀ p : Char → Bool, (∀ e ∈ r, p e = true) → (∀ e, p e = true → isNumberChar e = true) →
      (r ++ after).takeWhile p = r ∧ (r ++ after).dropWhile p = after := by
    intro p hp hpn
    obtain ⟨h₁, h₂⟩ := takeWhile_append_of_detached hpn (hn c (by simp)) hd
    rw [h₁, h₂, List.takeWhile_eq_self_iff.2 hp, List.dropWhile_eq_nil_iff.2 hp]
    exact ⟨rfl, rfl⟩
  by_cases hl : isLetter c = true
  · obtain ⟨h₁, h₂⟩ := hall isIdentChar (fun e he => hw.2 e (by simp [he]))
      (fun e he => isNumberChar_of_isIdentChar he)
    simp [splitToken, wordKind, hl, h₁, h₂]
  · have hdigit : c.isDigit = true := by
      have hc := hw.2 c (by simp)
      simp only [isIdentChar, isLetter, Char.isAlphanum, Bool.or_eq_true] at hc hl
      rcases hc with (h | h) | h
      · exact absurd (Or.inl h) hl
      · exact h
      · exact absurd (Or.inr h) hl
    obtain ⟨h₁, h₂⟩ := hall isNumberChar (fun e he => hn e (by simp [he])) (fun e he => he)
    simp [splitToken, wordKind, hl, hdigit, h₁, h₂]

theorem spells_word {gap w after : List Char} (hg : ∀ c ∈ gap, isSpace c = true) (hw : IsWord w)
    (ha : Breaks after) : Spells [word gap w] after := by
  have hn : ∀ e ∈ w, isNumberChar e = true := fun e he => isNumberChar_of_isIdentChar (hw.2 e he)
  have hbare : Spells [word [] w] after := by
    obtain ⟨c, r, rfl⟩ := List.exists_cons_of_ne_nil hw.1
    have hdepth : ∀ d, [word [] (c :: r)].foldl depthAfter d = d := by
      intro d
      simp [depthAfter]
    have hc := hn c (by simp)
    refine ⟨?_, fun d => ?_, fun d => ?_⟩
    · have hs : isSpace c = false := by
        rw [Bool.eq_false_iff]
        intro hs
        rw [isNumberChar_of_isSpace hs] at hc
        simp at hc
      have hgap : splitGap (c :: (r ++ after)) = ([], c :: (r ++ after)) :=
        splitGap_of_opensComment_eq_false hs
          (opensComment_of_ne (ne_of_isNumberChar hc (by decide)) _)
      rw [render_word, List.nil_append, List.cons_append, lexFrom_of_splitGap_cons false hgap,
        splitToken_word hw ha]
      rfl
    · rw [render_word, List.nil_append, Scan.run_of_isNumberChar hn, hdepth]
    · rw [render_word, List.nil_append, hdepth]
      refine outlineFrom_append_of_plain (fun e he => ?_) d after
      have h := hn e he
      exact ⟨ne_of_isNumberChar h (by decide), ne_of_isNumberChar h (by decide),
        ne_of_isNumberChar h (by decide), ne_of_isNumberChar h (by decide),
        ne_of_isNumberChar h (by decide)⟩
  simpa [Token.behind, word] using hbare.behind hg

theorem depthAfter_mark (gap : List Char) (c : Char) (d : Nat) :
    depthAfter d (mark gap c) = braceDepth d c := by
  simp [depthAfter, braceDepth]

theorem spells_mark {gap : List Char} {c : Char} (hg : ∀ c ∈ gap, isSpace c = true)
    (hc : isMark c = true) (after : List Char) : Spells [mark gap c] after := by
  obtain ⟨⟨⟨⟨⟨hn, hs⟩, hslash⟩, hstar⟩, hq⟩, ha⟩ := isMark_iff.1 hc
  have hbare : Spells [mark [] c] after := by
    refine ⟨?_, fun d => ?_, fun d => ?_⟩
    · have hempty : lexFrom false [] = ⟨[], []⟩ :=
        lexFrom_of_splitGap_nil false (by simp [splitGap])
      have hm := lexFrom_append_mark (d := 0) (a := []) false rfl hc after
      rw [hempty] at hm
      rw [render_mark]
      exact hm
    · rw [render_mark, List.foldl_cons, depthAfter_mark, List.nil_append, List.singleton_append,
        Scan.run_cons]
      simp [Scan.next, Mode.next, Mode.ofCode, Mode.isOutside, hslash, hq, ha]
    · rw [render_mark, List.foldl_cons, depthAfter_mark, List.nil_append, List.singleton_append,
        outlineFrom_cons_of_ne hslash hq ha]
      rfl
  simpa [Token.behind, mark] using hbare.behind hg

/-! Most words stand behind one space, and most marks behind nothing. -/

theorem isSpace_of_mem_space : ∀ c ∈ [' '], isSpace c = true := by decide

theorem breaks_space (r : List Char) : Breaks (' ' :: r) :=
  breaks_cons (by decide) r

theorem spells_spaced {w after : List Char} (hw : IsWord w) (ha : Breaks after) :
    Spells [word [' '] w] after :=
  spells_word isSpace_of_mem_space hw ha

theorem spells_glued {c : Char} (hc : isMark c = true) (after : List Char) :
    Spells [mark [] c] after :=
  spells_mark (fun _ h => absurd h List.not_mem_nil) hc after

/-! ## Texts without comments -/

/-- Whether no comment stands in a text, before, between or behind its tokens. -/
def CommentFree (s : List Char) : Prop :=
  (∀ t ∈ tokens s, ∀ c ∈ t.gap, isSpace c = true) ∧ ∀ c ∈ (lex s).tail, isSpace c = true

instance (s : List Char) : Decidable (CommentFree s) :=
  inferInstanceAs (Decidable (_ ∧ _))

/-- A text without comments holds no documentation block. -/
theorem CommentFree.outlineFrom_eq {s : List Char} (h : CommentFree s)
    (ho : (scan s).mode.isOutside = true) (d : Nat) : outlineFrom d s = ⟨s, [], []⟩ := by
  have ho' : (Scan.run ⟨.code, d⟩ s).mode.isOutside = true := by
    rw [Scan.mode_run .code d 0]
    exact ho
  refine outlineFrom_of_chunks_eq_nil ho' ?_
  cases firstBlock d s with
  | none h => rw [h]
  | unclosed lead r _ _ _ h => rw [h]
  | block lead r body after hs hl hr _ =>
    -- the block would stand in the gap before a token or in the tail
    exfalso
    have hcut : (Scan.run ⟨.code, d⟩ lead).CutsAt ('/' :: '*' :: '*' :: r) :=
      Or.inl (congrArg Scan.mode hl)
    have hd : Detached lead ('/' :: '*' :: '*' :: r) := by
      intro _ _ e he _
      obtain rfl : '/' = e := by simpa using he
      decide
    have hlex := lexFrom_append true hcut hd
    rw [← hs] at hlex
    obtain ⟨hgaps, htail⟩ := h
    rw [tokens, lex, hlex] at hgaps
    rw [lex, hlex] at htail
    have hgap := splitGap_block hr
    cases hx : (splitGap after).2 with
    | nil =>
      have hnil := lexFrom_of_splitGap_nil (s := '/' :: '*' :: '*' :: r)
        (true && (lexFrom true lead).tokens.isEmpty) (by rw [hgap, hx])
      rw [hnil] at htail
      have := htail '/' (by simp [Lexed.behind, Lexed.after])
      simp [isSpace] at this
    | cons c y =>
      rw [hx] at hgap
      rw [lexFrom_of_splitGap_cons _ hgap] at hgaps
      have := hgaps _ (List.mem_append_right _ (List.mem_cons_self ..)) '/'
        (by simp [Token.behind])
      simp [isSpace] at this

/-- A closed text without comments is spelled in front of any mark. -/
theorem CommentFree.spells {s : List Char} (h : CommentFree s)
    (ho : (scan s).mode.isOutside = true) (ht : (lexFrom false s).tail = []) {c : Char}
    (hc : isMark c = true) (r : List Char) : Spells (lexFrom false s).tokens (c :: r) := by
  obtain ⟨⟨⟨⟨⟨hn, hs⟩, hslash⟩, hstar⟩, hq⟩, ha⟩ := isMark_iff.1 hc
  have hrun : ∀ d, (Scan.run ⟨.code, d⟩ s).mode.isOutside = true := by
    intro d
    rw [Scan.mode_run .code d 0]
    exact ho
  have hrender : Token.render (lexFrom false s).tokens = s := by
    have := Lexed.text_lexFrom false s
    rwa [Lexed.text, ht, List.append_nil] at this
  have hcut : ∀ d, (Scan.run ⟨.code, d⟩ s).CutsAt (c :: r) := by
    intro d
    refine .of_isOutside (hrun d) fun e he => ?_
    obtain rfl : c = e := by simpa using he
    exact ⟨hslash, hstar⟩
  refine ⟨?_, fun d => ?_, fun d => ?_⟩
  · have hbare : Spells [mark [] c] r := spells_glued hc r
    have hm := hbare.lexFrom_eq
    rw [render_mark, List.nil_append, List.singleton_append] at hm
    rw [hrender, lexFrom_append_mark false ho hc, ht, hm]
    simp [Lexed.after, mark]
  · have hd := depth_run false (hrun d)
    have hr := hrun d
    rw [hrender, Scan.run_append, ← hd]
    generalize Scan.run ⟨.code, d⟩ s = e at hr
    obtain ⟨m, k⟩ := e
    -- a pending slash makes no comment with a mark
    cases m with
    | code => rfl
    | slash => simp [Scan.next, Mode.next, Mode.isOutside, hslash, hstar]
    | _ => simp [Mode.isOutside] at hr
  · rw [hrender, outlineFrom_append (hcut d), h.outlineFrom_eq ho, depth_run false (hrun d)]
    rfl

/-! ## Bodies -/

/-- The tokens of a body between braces, behind a gap. -/
def block (gap body : List Char) : List Token :=
  mark gap '{' :: ((lexFrom false body).tokens ++ [mark (lexFrom false body).tail '}'])

theorem render_block (gap body : List Char) :
    Token.render (block gap body) = gap ++ '{' :: (body ++ ['}']) := by
  have h := Lexed.text_lexFrom false body
  rw [Lexed.text] at h
  simp only [block, Token.render_cons, Token.render_append, Token.render_nil, gap_mark, text_mark,
    List.append_nil, List.append_assoc, List.singleton_append]
  rw [← List.append_assoc (Token.render _), h]

theorem ClosedBody.level?_eq {body : List Char} (h : ClosedBody body) (d : Nat) :
    level? '{' '}' d (lexFrom false body).tokens = some d := by
  rw [level?_lexFrom]
  simpa using level?_add h.balanced d

theorem foldl_block {body : List Char} (h : ClosedBody body) (gap : List Char) (d : Nat) :
    (block gap body).foldl depthAfter d = d := by
  rw [block, List.foldl_cons, List.foldl_append, depthAfter_mark,
    foldl_of_level? (h.level?_eq _), List.foldl_cons, depthAfter_mark]
  simp [braceDepth]

theorem spells_block {gap body : List Char} (hg : ∀ c ∈ gap, isSpace c = true)
    (hb : ClosedBody body) (after : List Char) : Spells (block gap body) after := by
  have hopen := spells_mark hg (c := '{') (by decide) (body ++ '}' :: after)
  have hclose : Spells [mark [] '}'] after := spells_glued (by decide) after
  have hrender : Token.render (block gap body) ++ after
      = Token.render [mark gap '{'] ++ (body ++ '}' :: after) := by
    rw [render_block, render_mark]
    simp
  refine ⟨?_, fun d => ?_, fun d => ?_⟩
  · rw [hrender, hopen.lexFrom_eq, lexFrom_append_mark false (hb.isOutside_run 0) (by decide)]
    simp [Lexed.after, block, mark]
  · have hcut : Scan.run ⟨.code, d + 1⟩ (body ++ '}' :: after) = Scan.run ⟨.code, d⟩ after := by
      have ho := hb.isOutside_run (d + 1)
      have hd := hb.depth_run (d + 1)
      rw [Scan.run_append]
      generalize Scan.run ⟨.code, d + 1⟩ body = e at ho hd
      obtain ⟨m, k⟩ := e
      obtain rfl : k = d + 1 := hd
      cases m with
      | code => rfl
      | slash => rfl
      | _ => simp [Mode.isOutside] at ho
    rw [hrender, hopen.run_eq, foldl_block hb, List.foldl_cons, depthAfter_mark]
    exact hcut
  · have hcut : (Scan.run ⟨.code, d + 1⟩ body).CutsAt ('}' :: after) := by
      refine .of_isOutside (hb.isOutside_run (d + 1)) fun e he => ?_
      obtain rfl : '}' = e := by simpa using he
      decide
    have hinside : outlineFrom (d + 1) (body ++ '}' :: after)
        = (outlineFrom d after).push (body ++ ['}']) := by
      have hm := hclose.outlineFrom_eq (d + 1)
      rw [render_mark, List.foldl_cons, depthAfter_mark] at hm
      rw [outlineFrom_append hcut, hb.outlineFrom_eq, hb.depth_run]
      refine (congrArg (Outline.append _) hm).trans ?_
      simp [Outline.append, Outline.push, braceDepth]
    rw [hrender, hopen.outlineFrom_eq, foldl_block hb, List.foldl_cons, depthAfter_mark,
      render_block, render_mark]
    refine (congrArg (Outline.push _) hinside).trans ?_
    rw [Outline.push_push]
    simp

end PawnApi.Source
