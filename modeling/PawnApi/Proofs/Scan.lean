/-
  PawnApi.Proofs.Scan

  Where a scan of a source text stands: in code, in a comment or in a literal, and
  how many braces are open.

  `Scan.run` reads a text character by character. The splitters of a text
  (`splitLine`, `closeComment?`, `splitLiteral`, `splitGap`) read it in larger steps,
  and each of them is shown to take the scan where the characters take it. On that
  rests what happens to a splitter when more text is put behind the one it reads:
  nothing, as long as the scan ends outside comments and literals.
-/
import PawnApi.Source.Outline

namespace PawnApi.Source

/-! ## Modes -/

/-- What the next character of a text is read as. -/
inductive Mode where
  | code
  /-- In code, right after a slash, which may still open a comment. -/
  | slash
  /-- In a line comment. -/
  | line
  /-- In a block comment. -/
  | block
  /-- In a block comment, right after a star. -/
  | star
  /-- In a literal that the character `quote` closes. -/
  | literal (quote : Char)
  /-- In a literal, right after a backslash. -/
  | escape (quote : Char)
  deriving DecidableEq, Repr

namespace Mode

/-- The mode after a character of code. -/
def ofCode (c : Char) : Mode :=
  if c = '/' then slash else if c = '"' ∨ c = '\'' then literal c else code

/-- The mode after one more character. -/
def next (m : Mode) (c : Char) : Mode :=
  match m with
  | code => ofCode c
  | slash => if c = '/' then line else if c = '*' then block else ofCode c
  | line => if c = '\n' then code else line
  | block => if c = '*' then star else block
  | star => if c = '/' then code else if c = '*' then star else block
  | literal quote =>
    if c = '\\' then escape quote else if c = quote ∨ c = '\n' then code else literal quote
  | escape quote => literal quote

/-- Whether the scan stands outside comments and literals. -/
def isOutside : Mode → Bool
  | code | slash => true
  | _ => false

end Mode

/-- Where a scan stands. -/
structure Scan where
  mode : Mode := .code
  /-- How many braces are open. A closing brace with nothing to close is ignored. -/
  depth : Nat := 0
  deriving DecidableEq, Repr

namespace Scan

/-- One more character. Only braces outside comments and literals count. -/
def next (s : Scan) (c : Char) : Scan :=
  ⟨s.mode.next c, if s.mode.isOutside then braceDepth s.depth c else s.depth⟩

/-- Where a scan stands after a text. -/
def run (s : Scan) (text : List Char) : Scan :=
  text.foldl next s

@[simp] theorem run_nil (s : Scan) : s.run [] = s := rfl

@[simp] theorem run_cons (s : Scan) (c : Char) (r : List Char) :
    s.run (c :: r) = (s.next c).run r := rfl

theorem run_append (s : Scan) (a b : List Char) : s.run (a ++ b) = (s.run a).run b :=
  List.foldl_append

/-- Whether the text `b` starts afresh where the scan stands: the scan is in code, and
    no slash before `b` makes a comment with its first character. -/
def CutsAt (s : Scan) (b : List Char) : Prop :=
  s.mode = .code ∨ s.mode = .slash ∧ ∀ c ∈ b.head?, c ≠ '/' ∧ c ≠ '*'

theorem CutsAt.isOutside {s : Scan} {b : List Char} (h : s.CutsAt b) :
    s.mode.isOutside = true := by
  rcases h with h | ⟨h, -⟩ <;> rw [h] <;> rfl

theorem CutsAt.of_isOutside {s : Scan} {b : List Char} (h : s.mode.isOutside = true)
    (hb : ∀ c ∈ b.head?, c ≠ '/' ∧ c ≠ '*') : s.CutsAt b := by
  cases hm : s.mode with
  | code => exact Or.inl hm
  | slash => exact Or.inr ⟨hm, hb⟩
  | _ => simp [hm, Mode.isOutside] at h

end Scan

/-- Where a scan of a whole text ends. -/
def scan (text : List Char) : Scan :=
  Scan.run {} text

namespace Scan

/-! ## Line comments -/

/-- What a line comment leaves starts with the line feed that ends it. -/
theorem splitLine_rest (r : List Char) :
    (splitLine r).2 = [] ∨ ∃ x, (splitLine r).2 = '\n' :: x := by
  cases h : (splitLine r).2 with
  | nil => exact Or.inl rfl
  | cons c x =>
    have hc := List.head?_dropWhile_not (· ≠ '\n') r
    simp only [splitLine] at h
    rw [h] at hc
    have hc' : c = '\n' := by simpa using hc
    exact Or.inr ⟨x, by rw [hc']⟩

theorem run_line (d : Nat) (r : List Char) :
    run ⟨.line, d⟩ r = run ⟨.line, d⟩ (splitLine r).2 := by
  induction r with
  | nil => rfl
  | cons c r ih =>
    by_cases hc : c = '\n'
    · subst hc
      rfl
    · simpa [splitLine, next, Mode.next, Mode.isOutside, hc] using ih

theorem run_line_of_isOutside {d : Nat} {r : List Char}
    (h : (run ⟨.line, d⟩ r).mode.isOutside = true) :
    (splitLine r).2 ≠ [] ∧ run ⟨.line, d⟩ r = run ⟨.code, d⟩ (splitLine r).2 := by
  rw [run_line] at h ⊢
  rcases splitLine_rest r with hr | ⟨x, hr⟩
  · rw [hr] at h
    simp [Mode.isOutside] at h
  · rw [hr]
    exact ⟨by simp, rfl⟩

theorem splitLine_append {r : List Char} (h : (splitLine r).2 ≠ []) (b : List Char) :
    splitLine (r ++ b) = ((splitLine r).1, (splitLine r).2 ++ b) := by
  simp only [splitLine] at h ⊢
  induction r with
  | nil => simp at h
  | cons c r ih =>
    by_cases hc : c = '\n'
    · simp [hc]
    · simp only [hc, List.cons_append, ne_eq, not_false_eq_true, decide_true,
        List.takeWhile_cons_of_pos, List.dropWhile_cons_of_pos] at h ih ⊢
      have := ih h
      simp only [Prod.mk.injEq] at this
      rw [this.1, this.2]

/-! ## Block comments -/

/-- After a star, a character other than a slash is read as after any other. -/
theorem run_star_of_ne {c : Char} (h : c ≠ '/') (d : Nat) (r : List Char) :
    run ⟨.star, d⟩ (c :: r) = run ⟨.block, d⟩ (c :: r) := by
  simp [next, Mode.next, Mode.isOutside, h]

theorem run_block_of_closeComment? {r body after : List Char} (d : Nat)
    (h : closeComment? r = some (body, after)) :
    run ⟨.block, d⟩ r = run ⟨.code, d⟩ after := by
  fun_induction closeComment? r generalizing body after with
  | case1 r =>
    simp only [Option.some.injEq, Prod.mk.injEq] at h
    rw [← h.2]
    rfl
  | case2 c r hc ih =>
    obtain ⟨⟨b, t⟩, hb, hbt⟩ := Option.map_eq_some_iff.1 h
    simp only [Prod.mk.injEq] at hbt
    obtain ⟨-, rfl⟩ := hbt
    rw [← ih hb]
    by_cases hs : c = '*'
    · subst hs
      cases r with
      | nil => simp [closeComment?] at hb
      | cons e r =>
        have he : e ≠ '/' := by
          intro he
          exact hc r rfl (by rw [he])
        exact run_star_of_ne he d r
    · simp [next, Mode.next, Mode.isOutside, hs]
  | case3 => simp at h

theorem closeComment?_append {r body after : List Char}
    (h : closeComment? r = some (body, after)) (b : List Char) :
    closeComment? (r ++ b) = some (body, after ++ b) := by
  fun_induction closeComment? r generalizing body after with
  | case1 r =>
    simp only [Option.some.injEq, Prod.mk.injEq] at h
    obtain ⟨rfl, rfl⟩ := h
    rfl
  | case2 c r hc ih =>
    obtain ⟨⟨b', t⟩, hb, hbt⟩ := Option.map_eq_some_iff.1 h
    simp only [Prod.mk.injEq] at hbt
    obtain ⟨rfl, rfl⟩ := hbt
    rw [List.cons_append, closeComment?, ih hb]
    · rfl
    · intro r' hs hr
      cases r with
      | nil => simp [closeComment?] at hb
      | cons e r =>
        simp only [List.cons_append, List.cons.injEq] at hr
        exact hc r hs (by rw [hr.1])
  | case3 => simp at h

/-- A block comment that is never closed keeps the scan inside. -/
theorem run_block_of_closeComment?_eq_none {r : List Char} (d : Nat)
    (h : closeComment? r = none) : (run ⟨.block, d⟩ r).mode.isOutside = false := by
  fun_induction closeComment? r with
  | case1 r => simp at h
  | case2 c r hc ih =>
    have hn := Option.map_eq_none_iff.1 h
    have := ih hn
    by_cases hs : c = '*'
    · subst hs
      cases r with
      | nil => rfl
      | cons e r =>
        have he : e ≠ '/' := by
          intro he
          exact hc r rfl (by rw [he])
        rw [← run_star_of_ne he] at this
        exact this
    · simpa [next, Mode.next, Mode.isOutside, hs] using this
  | case3 => rfl

/-! ## Literals -/

/-- A literal that the scan leaves ends where `splitLiteral` says, and the text behind
    it does not matter. -/
theorem run_literal_of_isOutside {d : Nat} {quote : Char} {r : List Char}
    (hq : quote ≠ '\\') (h : (run ⟨.literal quote, d⟩ r).mode.isOutside = true) :
    run ⟨.literal quote, d⟩ r = run ⟨.code, d⟩ (splitLiteral quote r).2 ∧
      ∀ b, splitLiteral quote (r ++ b)
        = ((splitLiteral quote r).1, (splitLiteral quote r).2 ++ b) := by
  fun_induction splitLiteral quote r with
  | case1 => simp [Mode.isOutside] at h
  | case2 c r p ih =>
    obtain ⟨h₁, h₂⟩ := ih h
    refine ⟨h₁, fun b => ?_⟩
    simp only [List.cons_append, splitLiteral, h₂ b, p]
  | case3 r hc =>
    refine ⟨by simp [next, Mode.next, Mode.isOutside, hq], fun b => ?_⟩
    rw [List.cons_append, splitLiteral.eq_3]
    · simp
    · intro c' r' hs _
      exact hq hs
  | case4 r hc hcq =>
    refine ⟨by simp [next, Mode.next, Mode.ofCode, Mode.isOutside, braceDepth], fun b => ?_⟩
    rw [List.cons_append, splitLiteral.eq_3]
    · simp [hcq]
    · simp
  | case5 c r hc hcq hlf p ih =>
    have hs : c ≠ '\\' := by
      intro hs
      subst hs
      cases r with
      | nil => simp [next, Mode.next, Mode.isOutside] at h
      | cons e r => exact hc e r rfl rfl
    have hn : run ⟨.literal quote, d⟩ (c :: r) = run ⟨.literal quote, d⟩ r := by
      simp [next, Mode.next, Mode.isOutside, hs, hcq, hlf]
    rw [hn] at h ⊢
    obtain ⟨h₁, h₂⟩ := ih h
    refine ⟨h₁, fun b => ?_⟩
    rw [List.cons_append, splitLiteral.eq_3]
    · simp [hcq, hlf, h₂ b, p]
    · intro c' r' he _
      exact hs he

end Scan

/-! ## Gaps -/

/-- Whether a text starts with a comment. -/
def opensComment : List Char → Bool
  | '/' :: c :: _ => c = '/' || c = '*'
  | _ => false

theorem opensComment_of_ne {c : Char} (h : c ≠ '/') (r : List Char) :
    opensComment (c :: r) = false := by
  rw [opensComment]
  intro c' r' hc
  exact h (List.cons.inj hc).1

theorem opensComment_eq_false_iff {c : Char} {r : List Char} :
    opensComment (c :: r) = false ↔
      (∀ r', c = '/' → r = '/' :: r' → False) ∧ (∀ r', c = '/' → r = '*' :: r' → False) := by
  by_cases hc : c = '/'
  · subst hc
    cases r with
    | nil => simp [opensComment]
    | cons e r => simp [opensComment]
  · simp [opensComment_of_ne hc, hc]

/-- A text that starts afresh after a character that opens no comment does not make it
    open one. -/
theorem opensComment_append {c : Char} {r b : List Char} {d : Nat}
    (h : opensComment (c :: r) = false) (hb : (Scan.run ⟨.code, d⟩ (c :: r)).CutsAt b) :
    opensComment (c :: (r ++ b)) = false := by
  by_cases hc : c = '/'
  · subst hc
    cases r with
    | nil =>
      have hm : (Scan.run ⟨.code, d⟩ ['/']).mode = .slash := rfl
      rcases hb with hb | ⟨-, hb⟩
      · rw [hm] at hb
        simp at hb
      · cases b with
        | nil => rfl
        | cons e b =>
          have := hb e rfl
          simp [opensComment, this]
    | cons e r => simpa [opensComment] using h
  · exact opensComment_of_ne hc _

theorem splitGap_of_opensComment_eq_false {c : Char} {r : List Char} (hs : isSpace c = false)
    (ho : opensComment (c :: r) = false) : splitGap (c :: r) = ([], c :: r) := by
  obtain ⟨h₁, h₂⟩ := opensComment_eq_false_iff.1 ho
  rw [splitGap.eq_3 _ _ h₁ h₂]
  simp [hs]

theorem splitGap_cons_of_isSpace {c : Char} (hs : isSpace c = true) (r : List Char) :
    splitGap (c :: r) = (c :: (splitGap r).1, (splitGap r).2) := by
  have hc : c ≠ '/' := by
    rintro rfl
    simp [isSpace] at hs
  obtain ⟨h₁, h₂⟩ := opensComment_eq_false_iff.1 (opensComment_of_ne hc r)
  rw [splitGap.eq_3 _ _ h₁ h₂]
  simp [hs]

theorem splitGap_line (r : List Char) :
    splitGap ('/' :: '/' :: r)
      = ('/' :: '/' :: (splitLine r).1 ++ (splitGap (splitLine r).2).1,
        (splitGap (splitLine r).2).2) := by
  rw [splitGap]

theorem splitGap_block {r body after : List Char} (h : closeComment? r = some (body, after)) :
    splitGap ('/' :: '*' :: r)
      = ('/' :: '*' :: body ++ (splitGap after).1, (splitGap after).2) := by
  rw [splitGap]
  split
  · rename_i b' a' h'
    rw [h] at h'
    simp only [Option.some.injEq, Prod.mk.injEq] at h'
    obtain ⟨rfl, rfl⟩ := h'
    rfl
  · rename_i h'
    rw [h] at h'
    simp at h'

/-- What follows a gap is neither a blank nor the start of a comment. -/
theorem opensComment_of_splitGap {a r : List Char} {c : Char} (h : (splitGap a).2 = c :: r) :
    isSpace c = false ∧ opensComment (c :: r) = false := by
  fun_induction splitGap a with
  | case1 r' p ih => exact ih h
  | case2 r' body after hb p ih => exact ih h
  | case3 r' hb => simp at h
  | case4 c' r' h₁ h₂ hs p ih => exact ih h
  | case5 c' r' h₁ h₂ hs =>
    obtain ⟨rfl, rfl⟩ := List.cons.inj h
    exact ⟨by simpa using hs, opensComment_eq_false_iff.2 ⟨h₁, h₂⟩⟩
  | case6 => simp at h

theorem Scan.next_of_isSpace {c : Char} (hs : isSpace c = true) (d : Nat) :
    Scan.next ⟨.code, d⟩ c = ⟨.code, d⟩ := by
  simp only [isSpace, Bool.or_eq_true, decide_eq_true_eq] at hs
  rcases hs with (((rfl | rfl) | rfl) | rfl) | rfl <;> rfl

/-- A gap leaves the scan in code, where what follows the gap starts. -/
theorem run_splitGap {d : Nat} {a : List Char}
    (h : (Scan.run ⟨.code, d⟩ a).mode.isOutside = true) :
    Scan.run ⟨.code, d⟩ a = Scan.run ⟨.code, d⟩ (splitGap a).2 := by
  fun_induction splitGap a with
  | case1 r p ih =>
    have hr : Scan.run ⟨.code, d⟩ ('/' :: '/' :: r) = Scan.run ⟨.line, d⟩ r := rfl
    rw [hr] at h ⊢
    obtain ⟨-, hl⟩ := Scan.run_line_of_isOutside h
    rw [hl] at h ⊢
    exact ih h
  | case2 r body after hb p ih =>
    have hr : Scan.run ⟨.code, d⟩ ('/' :: '*' :: r) = Scan.run ⟨.code, d⟩ after :=
      Scan.run_block_of_closeComment? d hb
    rw [hr] at h ⊢
    exact ih h
  | case3 r hb =>
    have hr := Scan.run_block_of_closeComment?_eq_none d hb
    rw [show Scan.run ⟨.code, d⟩ ('/' :: '*' :: r) = Scan.run ⟨.block, d⟩ r from rfl, hr] at h
    simp at h
  | case4 c r _ _ hs p ih =>
    rw [Scan.run_cons, Scan.next_of_isSpace hs] at h ⊢
    exact ih h
  | case5 => rfl
  | case6 => rfl

/-- The gap at the front of a text with more text behind it: the longer gap where the
    first text is a gap as a whole, the same gap where it is not. -/
theorem splitGap_append {d : Nat} {a b : List Char}
    (h : (Scan.run ⟨.code, d⟩ a).CutsAt b) :
    splitGap (a ++ b)
      = if (splitGap a).2 = [] then (a ++ (splitGap b).1, (splitGap b).2)
        else ((splitGap a).1, (splitGap a).2 ++ b) := by
  fun_induction splitGap a with
  | case1 r p ih =>
    have hr : Scan.run ⟨.code, d⟩ ('/' :: '/' :: r) = Scan.run ⟨.line, d⟩ r := rfl
    rw [hr] at h
    obtain ⟨hne, hl⟩ := Scan.run_line_of_isOutside h.isOutside
    rw [hl] at h
    rw [List.cons_append, List.cons_append, splitGap_line, Scan.splitLine_append hne b, ih h]
    have happ := append_splitLine r
    split <;> simp_all [p, ← List.append_assoc]
  | case2 r body after hb p ih =>
    rw [show Scan.run ⟨.code, d⟩ ('/' :: '*' :: r) = Scan.run ⟨.code, d⟩ after from
      Scan.run_block_of_closeComment? d hb] at h
    rw [List.cons_append, List.cons_append, splitGap_block (Scan.closeComment?_append hb b), ih h]
    have happ := append_of_closeComment? hb
    split <;> simp_all [p, ← List.append_assoc]
  | case3 r hb =>
    have hr := Scan.run_block_of_closeComment?_eq_none d hb
    have ho := h.isOutside
    rw [show Scan.run ⟨.code, d⟩ ('/' :: '*' :: r) = Scan.run ⟨.block, d⟩ r from rfl, hr] at ho
    simp at ho
  | case4 c r _ _ hs p ih =>
    rw [Scan.run_cons, Scan.next_of_isSpace hs] at h
    rw [List.cons_append, splitGap_cons_of_isSpace hs, ih h]
    split <;> simp_all [p]
  | case5 c r h₁ h₂ hs =>
    have hs' : isSpace c = false := by simpa using hs
    have ho := opensComment_append (opensComment_eq_false_iff.2 ⟨h₁, h₂⟩) h
    rw [List.cons_append, splitGap_of_opensComment_eq_false hs' ho]
    simp
  | case6 => simp

end PawnApi.Source
