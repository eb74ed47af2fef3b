/-
  PawnApi.Proofs.Seam

  Texts put behind each other.

  Where the scan of a first text ends outside comments and literals and no word runs
  across the seam, the tokens of the whole are the tokens of the first text and those
  of the second (`lexFrom_append`), and the outline of the whole is the outline of the
  first text continued by that of the second (`outlineFrom_append`). The brace depth
  that the scan counts is the one that the brace tokens count (`depth_run`).
-/
import Mathlib.Data.List.TakeWhile
import PawnApi.Declaration.Classify
import PawnApi.Proofs.Scan

namespace PawnApi.Source

open PawnApi.Declaration (depthAfter)

/-! ## One token -/

/-- Whether no word runs from the end of `a` into `b`. -/
def Detached (a b : List Char) : Prop :=
  ∀ c ∈ a.getLast?, ∀ e ∈ b.head?, isNumberChar c = true → isNumberChar e = false

theorem Detached.slash (a z : List Char) : Detached a ('/' :: z) := by
  intro c _ e he _
  obtain rfl : '/' = e := by simpa using he
  decide

theorem isNumberChar_of_isIdentChar {c : Char} (h : isIdentChar c = true) :
    isNumberChar c = true := by
  simp only [isIdentChar, isNumberChar, Bool.or_eq_true] at h ⊢
  exact Or.inl h

theorem isIdentChar_of_isLetter {c : Char} (h : isLetter c = true) : isIdentChar c = true := by
  simp only [isLetter, isIdentChar, Char.isAlphanum, Bool.or_eq_true] at h ⊢
  rcases h with h | h
  · exact Or.inl (Or.inl h)
  · exact Or.inr h

theorem isNumberChar_of_isDigit {c : Char} (h : c.isDigit = true) : isNumberChar c = true := by
  simp [isNumberChar, Char.isAlphanum, h]

theorem ne_of_isNumberChar {c e : Char} (h : isNumberChar c = true)
    (he : isNumberChar e = false) : c ≠ e := by
  rintro rfl
  rw [h] at he
  simp at he

theorem isNumberChar_of_isSpace {c : Char} (h : isSpace c = true) : isNumberChar c = false := by
  simp only [isSpace, Bool.or_eq_true, decide_eq_true_eq] at h
  rcases h with (((rfl | rfl) | rfl) | rfl) | rfl <;> rfl

/-- The characters of words mean nothing to a scan. -/
theorem Scan.next_of_isNumberChar {c : Char} (h : isNumberChar c = true) (d : Nat) :
    Scan.next ⟨.code, d⟩ c = ⟨.code, d⟩ := by
  have h₁ : c ≠ '/' := ne_of_isNumberChar h (by decide)
  have h₂ : c ≠ '"' := ne_of_isNumberChar h (by decide)
  have h₃ : c ≠ '\'' := ne_of_isNumberChar h (by decide)
  have h₄ : c ≠ '{' := ne_of_isNumberChar h (by decide)
  have h₅ : c ≠ '}' := ne_of_isNumberChar h (by decide)
  simp [Scan.next, Mode.next, Mode.ofCode, Mode.isOutside, braceDepth, h₁, h₂, h₃, h₄, h₅]

theorem Scan.run_of_isNumberChar {x : List Char} (h : ∀ c ∈ x, isNumberChar c = true) (d : Nat)
    (y : List Char) : Scan.run ⟨.code, d⟩ (x ++ y) = Scan.run ⟨.code, d⟩ y := by
  induction x with
  | nil => rfl
  | cons c x ih =>
    rw [List.cons_append, Scan.run_cons, Scan.next_of_isNumberChar (h c (by simp))]
    exact ih fun e he => h e (by simp [he])

theorem Scan.run_dropWhile {p : Char → Bool} (hp : ∀ c, p c = true → isNumberChar c = true)
    (d : Nat) (r : List Char) :
    Scan.run ⟨.code, d⟩ r = Scan.run ⟨.code, d⟩ (r.dropWhile p) := by
  have hw : ∀ c ∈ r.takeWhile p, isNumberChar c = true :=
    fun c hc => hp c (List.mem_takeWhile_imp hc)
  rw [← Scan.run_of_isNumberChar hw d (r.dropWhile p), List.takeWhile_append_dropWhile]

/-- After a slash, a text that opens no comment with it is read as after anything else. -/
theorem Scan.run_slash {c : Char} {r : List Char} (h : opensComment ('/' :: c :: r) = false)
    (d : Nat) : Scan.run ⟨.slash, d⟩ (c :: r) = Scan.run ⟨.code, d⟩ (c :: r) := by
  have h₁ : c ≠ '/' := by
    rintro rfl
    simp [opensComment] at h
  have h₂ : c ≠ '*' := by
    rintro rfl
    simp [opensComment] at h
  simp [Scan.next, Mode.next, Mode.isOutside, h₁, h₂]

theorem Token.isPunct_eq_false {t : Token} (h : t.kind ≠ .punct) (c : Char) :
    t.isPunct c = false := by
  simp [Token.isPunct, h]

theorem depthAfter_of_kind_ne {t : Token} (h : t.kind ≠ .punct) (d : Nat) :
    depthAfter d t = d := by
  simp [depthAfter, Token.isPunct_eq_false h]

/-- The token at the front of a text takes the scan back to code, with the braces counted,
    unless it is a slash at the end of the text. -/
theorem run_splitToken {d : Nat} {c : Char} {r : List Char} (gap : List Char) (o : Bool)
    (ho : opensComment (c :: r) = false)
    (h : (Scan.run ⟨.code, d⟩ (c :: r)).mode.isOutside = true) :
    (c = '/' ∧ r = []) ∨
      Scan.run ⟨.code, d⟩ (c :: r)
        = Scan.run ⟨.code, depthAfter d ⟨gap, (splitToken c r).1, c :: (splitToken c r).2.1, o⟩⟩
            (splitToken c r).2.2 := by
  unfold splitToken
  split
  · rename_i hl
    right
    have hw : Scan.run ⟨.code, d⟩ (c :: r) = Scan.run ⟨.code, d⟩ (r.dropWhile isIdentChar) := by
      rw [Scan.run_cons, Scan.next_of_isNumberChar
        (isNumberChar_of_isIdentChar (isIdentChar_of_isLetter hl))]
      exact Scan.run_dropWhile (fun _ => isNumberChar_of_isIdentChar) d r
    rw [depthAfter_of_kind_ne (by simp)]
    exact hw
  split
  · rename_i hd
    right
    have hw : Scan.run ⟨.code, d⟩ (c :: r) = Scan.run ⟨.code, d⟩ (r.dropWhile isNumberChar) := by
      rw [Scan.run_cons, Scan.next_of_isNumberChar (isNumberChar_of_isDigit hd)]
      exact Scan.run_dropWhile (fun _ h => h) d r
    rw [depthAfter_of_kind_ne (by simp)]
    exact hw
  split
  · rename_i hq
    subst hq
    right
    have hw : Scan.run ⟨.code, d⟩ ('"' :: r) = Scan.run ⟨.code, d⟩ (splitLiteral '"' r).2 :=
      (Scan.run_literal_of_isOutside (by decide) h).1
    rw [depthAfter_of_kind_ne (by simp)]
    exact hw
  split
  · rename_i hq
    subst hq
    right
    have hw : Scan.run ⟨.code, d⟩ ('\'' :: r) = Scan.run ⟨.code, d⟩ (splitLiteral '\'' r).2 :=
      (Scan.run_literal_of_isOutside (by decide) h).1
    rw [depthAfter_of_kind_ne (by simp)]
    exact hw
  · rename_i h₁ h₂ h₃ h₄
    by_cases hc : c = '/'
    · subst hc
      cases r with
      | nil => exact Or.inl ⟨rfl, rfl⟩
      | cons e r =>
        right
        have hr : Scan.run ⟨.code, d⟩ ('/' :: e :: r) = Scan.run ⟨.slash, d⟩ (e :: r) := rfl
        rw [hr, Scan.run_slash ho]
        simp [depthAfter, Token.isPunct]
    · right
      have hn : Scan.next ⟨.code, d⟩ c = ⟨.code, braceDepth d c⟩ := by
        simp [Scan.next, Mode.next, Mode.ofCode, Mode.isOutside, hc, h₃, h₄]
      rw [Scan.run_cons, hn]
      simp [depthAfter, Token.isPunct, braceDepth]

theorem takeWhile_append_of_detached {p : Char → Bool} {c : Char} {r b : List Char}
    (hp : ∀ e, p e = true → isNumberChar e = true) (hc : isNumberChar c = true)
    (h : Detached (c :: r) b) :
    (r ++ b).takeWhile p = r.takeWhile p ∧ (r ++ b).dropWhile p = r.dropWhile p ++ b := by
  induction r generalizing c with
  | nil =>
    cases b with
    | nil => simp
    | cons e b =>
      have he : p e = false := by
        have hn : isNumberChar e = false := h c rfl e rfl hc
        cases hpe : p e with
        | false => rfl
        | true =>
          rw [hp e hpe] at hn
          simp at hn
      simp [he]
  | cons e r ih =>
    cases hpe : p e with
    | false => simp [hpe]
    | true =>
      have hd : Detached (e :: r) b := fun x hx => h x (by simpa using hx)
      obtain ⟨h₁, h₂⟩ := ih (hp e hpe) hd
      simp [hpe, h₁, h₂]

/-- The token at the front of a text does not change with the text behind a seam. -/
theorem splitToken_append {d : Nat} {c : Char} {r b : List Char}
    (h : (Scan.run ⟨.code, d⟩ (c :: r)).CutsAt b) (hd : Detached (c :: r) b) :
    splitToken c (r ++ b)
      = ((splitToken c r).1, (splitToken c r).2.1, (splitToken c r).2.2 ++ b) := by
  unfold splitToken
  split
  · rename_i hl
    have hc := isNumberChar_of_isIdentChar (isIdentChar_of_isLetter hl)
    obtain ⟨h₁, h₂⟩ := takeWhile_append_of_detached (fun _ => isNumberChar_of_isIdentChar) hc hd
    rw [h₁, h₂]
  split
  · rename_i hl
    obtain ⟨h₁, h₂⟩ :=
      takeWhile_append_of_detached (fun _ h => h) (isNumberChar_of_isDigit hl) hd
    rw [h₁, h₂]
  split
  · rename_i hq
    subst hq
    have ho : (Scan.run ⟨.literal '"', d⟩ r).mode.isOutside = true := h.isOutside
    rw [(Scan.run_literal_of_isOutside (by decide) ho).2 b]
  split
  · rename_i hq
    subst hq
    have ho : (Scan.run ⟨.literal '\'', d⟩ r).mode.isOutside = true := h.isOutside
    rw [(Scan.run_literal_of_isOutside (by decide) ho).2 b]
  · rfl

/-! ## Tokens across a seam -/

theorem lexFrom_of_splitGap_nil {s : List Char} (first : Bool) (h : (splitGap s).2 = []) :
    lexFrom first s = ⟨[], s⟩ := by
  have hs := append_splitGap s
  rw [h, List.append_nil] at hs
  have hg : splitGap s = (s, []) := Prod.ext hs h
  rw [lexFrom]
  split
  · rename_i gap hgap
    rw [hg] at hgap
    simp only [Prod.mk.injEq, and_true] at hgap
    rw [hgap]
  · rename_i gap c r hgap
    rw [hg] at hgap
    simp at hgap

theorem lexFrom_of_splitGap_cons {s gap r : List Char} {c : Char} (first : Bool)
    (h : splitGap s = (gap, c :: r)) :
    lexFrom first s
      = ⟨⟨gap, (splitToken c r).1, c :: (splitToken c r).2.1, first || gap.contains '\n'⟩
          :: (lexFrom false (splitToken c r).2.2).tokens,
        (lexFrom false (splitToken c r).2.2).tail⟩ := by
  rw [lexFrom]
  split
  · rename_i gap' hgap
    rw [h] at hgap
    simp at hgap
  · rename_i gap' c' r' hgap
    rw [h] at hgap
    simp only [Prod.mk.injEq, List.cons.injEq] at hgap
    obtain ⟨rfl, rfl, rfl⟩ := hgap
    rfl

/-- The token with a longer gap before it. -/
def Token.behind (gap : List Char) (t : Token) : Token :=
  { t with gap := gap ++ t.gap, opensLine := t.opensLine || gap.contains '\n' }

/-- Tokens with a longer gap before the first of them. -/
def Lexed.behind (gap : List Char) : Lexed → Lexed
  | ⟨[], tail⟩ => ⟨[], gap ++ tail⟩
  | ⟨t :: ts, tail⟩ => ⟨t.behind gap :: ts, tail⟩

/-- Tokens put before the tokens of a text. -/
def Lexed.after (ts : List Token) (l : Lexed) : Lexed :=
  ⟨ts ++ l.tokens, l.tail⟩

@[simp] theorem Lexed.after_nil (l : Lexed) : l.after [] = l := rfl

theorem lexFrom_behind {gap b : List Char} (first : Bool)
    (h : splitGap (gap ++ b) = (gap ++ (splitGap b).1, (splitGap b).2)) :
    lexFrom first (gap ++ b) = (lexFrom first b).behind gap := by
  cases hb : (splitGap b).2 with
  | nil =>
    rw [lexFrom_of_splitGap_nil first hb, lexFrom_of_splitGap_nil first (by rw [h]; exact hb)]
    rfl
  | cons c r =>
    have hb' : splitGap b = ((splitGap b).1, c :: r) := Prod.ext rfl hb
    have hg : splitGap (gap ++ b) = (gap ++ (splitGap b).1, c :: r) := by rw [h, hb]
    rw [lexFrom_of_splitGap_cons first hb', lexFrom_of_splitGap_cons first hg]
    simp only [Lexed.behind, Token.behind, List.contains_append, Bool.or_comm, Bool.or_left_comm]

theorem Detached.of_append {a x y b : List Char} (h : Detached a b) (ha : x ++ y = a) :
    Detached y b := by
  intro c hc e he
  refine h c ?_ e he
  rw [← ha]
  rw [List.getLast?_append, Option.mem_def.1 hc]
  rfl

/-- The token at the front of a text leaves a seam where there was one. -/
theorem CutsAt.splitToken {d : Nat} {c : Char} {r b : List Char} (gap : List Char) (o : Bool)
    (ho : opensComment (c :: r) = false) (h : (Scan.run ⟨.code, d⟩ (c :: r)).CutsAt b) :
    (Scan.run ⟨.code, depthAfter d ⟨gap, (splitToken c r).1, c :: (splitToken c r).2.1, o⟩⟩
      (splitToken c r).2.2).CutsAt b := by
  rcases run_splitToken gap o ho h.isOutside with ⟨rfl, rfl⟩ | hr
  · exact Or.inl rfl
  · rw [← hr]
    exact h

/-- The tokens of a text cut at a seam: those of the first part, then those of the second
    part behind the gap that the first part ends with. -/
theorem lexFrom_append {d : Nat} {a b : List Char} (first : Bool)
    (h : (Scan.run ⟨.code, d⟩ a).CutsAt b) (hd : Detached a b) :
    lexFrom first (a ++ b)
      = ((lexFrom (first && (lexFrom first a).tokens.isEmpty) b).behind
          (lexFrom first a).tail).after (lexFrom first a).tokens := by
  -- the scan depth changes from token to token, so it is generalised with the text
  fun_induction lexFrom first a generalizing d with
  | case1 first s gap hg =>
    have hn : (splitGap s).2 = [] := by rw [hg]
    have hs : s = gap := by
      have := append_splitGap s
      rw [hg, List.append_nil] at this
      exact this.symm
    subst hs
    have hb : splitGap (s ++ b) = (s ++ (splitGap b).1, (splitGap b).2) := by
      rw [splitGap_append h, if_pos hn]
    simp only [List.isEmpty_nil, Bool.and_true, Lexed.after_nil]
    exact lexFrom_behind first hb
  | case2 first s gap c r hg t l =>
    rename_i ih
    have hr : (splitGap s).2 = c :: r := by rw [hg]
    obtain ⟨hsp, ho⟩ := opensComment_of_splitGap hr
    have hc : (Scan.run ⟨.code, d⟩ (c :: r)).CutsAt b := by
      rw [run_splitGap h.isOutside, hr] at h
      exact h
    have happ : gap ++ (c :: r) = s := by
      have := append_splitGap s
      rwa [hg] at this
    have hdc : Detached (c :: r) b := hd.of_append happ
    have hdt : Detached t.2.2 b := by
      refine hdc.of_append (x := c :: t.2.1) ?_
      rw [List.cons_append, append_splitToken]
    have hgap : splitGap (s ++ b) = (gap, c :: (r ++ b)) := by
      rw [splitGap_append h, if_neg (by rw [hr]; simp), hg, List.cons_append]
    rw [lexFrom_of_splitGap_cons first hgap, splitToken_append hc hdc,
      ih (CutsAt.splitToken gap true ho hc) hdt]
    simp [Lexed.after, t, l]

/-- The scan counts the braces that the brace tokens count. -/
theorem depth_run {d : Nat} {a : List Char} (first : Bool)
    (h : (Scan.run ⟨.code, d⟩ a).mode.isOutside = true) :
    (Scan.run ⟨.code, d⟩ a).depth = (lexFrom first a).tokens.foldl depthAfter d := by
  fun_induction lexFrom first a generalizing d with
  | case1 first s gap hg =>
    rw [run_splitGap h, hg]
    rfl
  | case2 first s gap c r hg t l =>
    rename_i ih
    have hr : (splitGap s).2 = c :: r := by rw [hg]
    obtain ⟨-, ho⟩ := opensComment_of_splitGap hr
    have hgap := run_splitGap h
    rw [hr] at hgap
    rw [hgap] at h ⊢
    rcases run_splitToken gap (first || gap.contains '\n') ho h with ⟨rfl, rfl⟩ | hrun
    · have ht : t.2.2 = [] := rfl
      have hl : l = ⟨[], []⟩ := by
        simp only [l, ht]
        exact lexFrom_of_splitGap_nil false (by simp [splitGap])
      rw [hl]
      rfl
    · rw [hrun] at h ⊢
      exact ih h

/-! ## Marks -/

/-- Whether a character is a token of its own wherever it stands in code: it is no blank,
    no part of a word, and it neither starts a literal nor has to do with comments. -/
def isMark (c : Char) : Bool :=
  !isNumberChar c && !isSpace c && c ≠ '/' && c ≠ '*' && c ≠ '"' && c ≠ '\''

theorem isMark_iff {c : Char} : isMark c = true ↔
    ((((isNumberChar c = false ∧ isSpace c = false) ∧ c ≠ '/') ∧ c ≠ '*') ∧ c ≠ '"') ∧
      c ≠ '\'' := by
  simp [isMark]

theorem splitToken_mark {c : Char} (h : isMark c = true) (r : List Char) :
    splitToken c r = (.punct, [], r) := by
  obtain ⟨⟨⟨⟨⟨hn, -⟩, -⟩, -⟩, hq⟩, ha⟩ := isMark_iff.1 h
  have hl : isLetter c = false := by
    cases hl : isLetter c with
    | false => rfl
    | true => rw [isNumberChar_of_isIdentChar (isIdentChar_of_isLetter hl)] at hn; exact hn
  have hd : c.isDigit = false := by
    cases hd : c.isDigit with
    | false => rfl
    | true => rw [isNumberChar_of_isDigit hd] at hn; exact hn
  simp [splitToken, hl, hd, hq, ha]

/-- A mark cuts the text before it from the text behind it. -/
theorem lexFrom_append_mark {d : Nat} {a : List Char} {c : Char} (first : Bool)
    (ha : (Scan.run ⟨.code, d⟩ a).mode.isOutside = true) (hc : isMark c = true) (r : List Char) :
    lexFrom first (a ++ c :: r)
      = ⟨(lexFrom first a).tokens ++ ⟨(lexFrom first a).tail, .punct, [c],
            first && (lexFrom first a).tokens.isEmpty || (lexFrom first a).tail.contains '\n'⟩
          :: (lexFrom false r).tokens, (lexFrom false r).tail⟩ := by
  obtain ⟨⟨⟨⟨⟨hn, hs⟩, hslash⟩, hstar⟩, -⟩, -⟩ := isMark_iff.1 hc
  have hcut : (Scan.run ⟨.code, d⟩ a).CutsAt (c :: r) := by
    refine Scan.CutsAt.of_isOutside ha ?_
    intro e he
    obtain rfl : c = e := by simpa using he
    exact ⟨hslash, hstar⟩
  have hd : Detached a (c :: r) := by
    intro _ _ e he _
    obtain rfl : c = e := by simpa using he
    exact hn
  have hgap : splitGap (c :: r) = ([], c :: r) :=
    splitGap_of_opensComment_eq_false hs (opensComment_of_ne hslash r)
  rw [lexFrom_append first hcut hd, lexFrom_of_splitGap_cons _ hgap, splitToken_mark hc]
  simp [Lexed.behind, Lexed.after, Token.behind]

/-! ## Outlines across a seam -/

/-- The chunks with more text behind the last of them. -/
def extendLast (s : List Char) : List Chunk → List Chunk
  | [] => []
  | [c] => [⟨c.comment, c.body ++ s⟩]
  | c :: cs => c :: extendLast s cs

/-- An outline continued by the outline of the text behind it. -/
def Outline.append (o p : Outline) : Outline :=
  if o.chunks.isEmpty then ⟨o.lead ++ p.lead, p.chunks, p.rest⟩
  else ⟨o.lead, extendLast p.lead o.chunks ++ p.chunks, p.rest⟩

theorem Outline.append_push (s : List Char) (o p : Outline) :
    (o.push s).append p = (o.append p).push s := by
  unfold Outline.append Outline.push
  split <;> simp

theorem Outline.append_document (s : List Char) (o p : Outline) :
    (o.document s).append p = (o.append p).document s := by
  unfold Outline.append Outline.document
  cases o.chunks with
  | nil => simp [extendLast]
  | cons c cs => simp [extendLast]

@[simp] theorem Outline.nil_append (p : Outline) : Outline.append ⟨[], [], []⟩ p = p := rfl

theorem outlineFrom_block {r body after : List Char} (d : Nat)
    (h : closeComment? r = some (body, after)) :
    outlineFrom d ('/' :: '*' :: r)
      = if d = 0 ∧ r.head? = some '*' then (outlineFrom d after).document ('/' :: '*' :: body)
        else (outlineFrom d after).push ('/' :: '*' :: body) := by
  rw [outlineFrom]
  split
  · rename_i b' a' h'
    rw [h] at h'
    simp only [Option.some.injEq, Prod.mk.injEq] at h'
    obtain ⟨rfl, rfl⟩ := h'
    rfl
  · rename_i h'
    rw [h] at h'
    simp at h'

theorem outlineFrom_of_closeComment?_eq_none {r : List Char} (d : Nat)
    (h : closeComment? r = none) : outlineFrom d ('/' :: '*' :: r) = ⟨[], [], '/' :: '*' :: r⟩ := by
  rw [outlineFrom]
  split
  · rename_i b' a' h'
    rw [h] at h'
    simp at h'
  · rfl

theorem outlineFrom_line (d : Nat) (r : List Char) :
    outlineFrom d ('/' :: '/' :: r)
      = (outlineFrom d (splitLine r).2).push ('/' :: '/' :: (splitLine r).1) := by
  rw [outlineFrom]

theorem outlineFrom_cons {c : Char} {r : List Char} (d : Nat)
    (h : opensComment (c :: r) = false) :
    outlineFrom d (c :: r)
      = if c = '"' ∨ c = '\'' then
          (outlineFrom d (splitLiteral c r).2).push (c :: (splitLiteral c r).1)
        else (outlineFrom (braceDepth d c) r).push [c] := by
  obtain ⟨h₁, h₂⟩ := opensComment_eq_false_iff.1 h
  rw [outlineFrom.eq_3 _ _ _ h₁ h₂]

theorem head?_append_of_closeComment? {r body after : List Char}
    (h : closeComment? r = some (body, after)) (b : List Char) : (r ++ b).head? = r.head? := by
  cases r with
  | nil => simp [closeComment?] at h
  | cons c r => rfl

/-- The outline of a text cut at a seam is the outline of the first part continued by
    that of the second, which starts at the depth where the first part ends. -/
theorem outlineFrom_append {d : Nat} {a b : List Char}
    (h : (Scan.run ⟨.code, d⟩ a).CutsAt b) :
    outlineFrom d (a ++ b)
      = (outlineFrom d a).append (outlineFrom (Scan.run ⟨.code, d⟩ a).depth b) := by
  fun_induction outlineFrom d a with
  | case1 d r ih =>
    have hr : Scan.run ⟨.code, d⟩ ('/' :: '/' :: r) = Scan.run ⟨.line, d⟩ r := rfl
    rw [hr] at h ⊢
    obtain ⟨hne, hl⟩ := Scan.run_line_of_isOutside h.isOutside
    rw [hl] at h ⊢
    rw [List.cons_append, List.cons_append, outlineFrom_line, Scan.splitLine_append hne b, ih h,
      Outline.append_push]
  | case2 d r body after hb o comment hc ih =>
    have hr : Scan.run ⟨.code, d⟩ ('/' :: '*' :: r) = Scan.run ⟨.code, d⟩ after :=
      Scan.run_block_of_closeComment? d hb
    rw [hr] at h ⊢
    rw [List.cons_append, List.cons_append,
      outlineFrom_block d (Scan.closeComment?_append hb b), head?_append_of_closeComment? hb,
      if_pos hc, ih h, Outline.append_document]
  | case3 d r body after hb o comment hc ih =>
    have hr : Scan.run ⟨.code, d⟩ ('/' :: '*' :: r) = Scan.run ⟨.code, d⟩ after :=
      Scan.run_block_of_closeComment? d hb
    rw [hr] at h ⊢
    rw [List.cons_append, List.cons_append,
      outlineFrom_block d (Scan.closeComment?_append hb b), head?_append_of_closeComment? hb,
      if_neg hc, ih h, Outline.append_push]
  | case4 d r hb =>
    have hr := Scan.run_block_of_closeComment?_eq_none d hb
    have ho := h.isOutside
    rw [show Scan.run ⟨.code, d⟩ ('/' :: '*' :: r) = Scan.run ⟨.block, d⟩ r from rfl, hr] at ho
    simp at ho
  | case5 d c r h₁ h₂ hq ih =>
    have ho := opensComment_append (opensComment_eq_false_iff.2 ⟨h₁, h₂⟩) h
    have hn : Scan.run ⟨.code, d⟩ (c :: r) = Scan.run ⟨.literal c, d⟩ r := by
      rcases hq with rfl | rfl <;> rfl
    have hc : c ≠ '\\' := by rcases hq with rfl | rfl <;> decide
    rw [hn] at h ⊢
    obtain ⟨hl, happ⟩ := Scan.run_literal_of_isOutside hc h.isOutside
    rw [hl] at h ⊢
    rw [List.cons_append, outlineFrom_cons d ho, if_pos hq, happ b, ih h, Outline.append_push]
  | case6 d c r h₁ h₂ hq ih =>
    have hr : opensComment (c :: r) = false := opensComment_eq_false_iff.2 ⟨h₁, h₂⟩
    have ho := opensComment_append hr h
    rw [List.cons_append, outlineFrom_cons d ho, if_neg hq]
    by_cases hc : c = '/'
    · subst hc
      cases r with
      | nil =>
        rw [ih (Or.inl rfl), Outline.append_push]
        rfl
      | cons e r =>
        have hn : Scan.run ⟨.code, d⟩ ('/' :: e :: r) = Scan.run ⟨.code, d⟩ (e :: r) :=
          Scan.run_slash hr d
        rw [hn] at h ⊢
        rw [ih h, Outline.append_push]
        rfl
    · have hn : Scan.run ⟨.code, d⟩ (c :: r) = Scan.run ⟨.code, braceDepth d c⟩ r := by
        rw [Scan.run_cons]
        simp only [not_or] at hq
        simp [Scan.next, Mode.next, Mode.ofCode, Mode.isOutside, hc, hq]
      rw [hn] at h ⊢
      rw [ih h, Outline.append_push]
  | case7 d => simp

end PawnApi.Source
