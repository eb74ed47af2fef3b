/-
  PawnApi.Proofs.Blocks

  Documentation blocks where they stand in a source text.

  A documentation block stands where a scan from the start of the text is in code
  outside all braces, and it is closed (`DocBlock`). The outline of a text is found
  from block to block (`firstBlock`): the text before the first block, then the outline
  of what follows the block. So no block is missed between two chunks
  (`DocBlock.length_lead_le`), and the tokens of a chunk's code are tokens of the whole
  text (`exists_tokens_of_code`).
-/
import PawnApi.Include
import PawnApi.Proofs.Seam

namespace PawnApi.Source

open PawnApi.Declaration (depthAfter)

/-! ## Chunks across the start of a block -/

theorem extendLast_nil (cs : List Chunk) : extendLast [] cs = cs := by
  fun_induction extendLast [] cs with
  | case1 => rfl
  | case2 c => simp
  | case3 c cs _ ih => rw [ih]

/-- Continuing an outline by one without leading text puts the chunks behind each other. -/
theorem Outline.chunks_append {p : Outline} (h : p.lead = []) (o : Outline) :
    (o.append p).chunks = o.chunks ++ p.chunks := by
  unfold Outline.append
  split
  · rename_i hc
    rw [List.isEmpty_iff.1 hc, List.nil_append]
  · rw [h, extendLast_nil]

/-- A text that starts with a documentation block has nothing before its first chunk,
    even if the block is never closed. -/
theorem lead_outlineFrom_doc (r : List Char) :
    (outlineFrom 0 ('/' :: '*' :: '*' :: r)).lead = [] := by
  cases h : closeComment? ('*' :: r) with
  | none => rw [outlineFrom_of_closeComment?_eq_none 0 h]
  | some p =>
    obtain ⟨body, after⟩ := p
    rw [outlineFrom_block 0 h, if_pos ⟨rfl, rfl⟩]
    rfl

/-- The chunks of a text cut before a documentation block, outside all braces. -/
theorem chunks_append_doc {a : List Char} (h : scan a = ⟨.code, 0⟩) (r : List Char) :
    chunks (a ++ '/' :: '*' :: '*' :: r) = chunks a ++ chunks ('/' :: '*' :: '*' :: r) := by
  have hc : (Scan.run ⟨.code, 0⟩ a).CutsAt ('/' :: '*' :: '*' :: r) :=
    Or.inl (congrArg Scan.mode h)
  have hd : (Scan.run ⟨.code, 0⟩ a).depth = 0 := congrArg Scan.depth h
  unfold chunks outline
  rw [outlineFrom_append hc, hd]
  exact Outline.chunks_append (lead_outlineFrom_doc r) _

/-- The text before the first chunk ends, at the latest, before a documentation block. -/
theorem length_lead_append_doc {y block : List Char} (h : Scan.run ⟨.code, 0⟩ y = ⟨.code, 0⟩)
    (hb : ['/', '*', '*'] <+: block) (r : List Char) :
    (outlineFrom 0 (y ++ (block ++ r))).lead.length ≤ y.length := by
  obtain ⟨b, rfl⟩ := hb
  have hc : (Scan.run ⟨.code, 0⟩ y).CutsAt (['/', '*', '*'] ++ b ++ r) :=
    Or.inl (congrArg Scan.mode h)
  have hl : (outlineFrom 0 (['/', '*', '*'] ++ b ++ r)).lead = [] := by
    simpa using lead_outlineFrom_doc (b ++ r)
  have ht := congrArg List.length (Outline.text_outlineFrom 0 y)
  rw [outlineFrom_append hc, h, Outline.append, hl]
  simp only [Outline.text, List.length_append] at ht
  split
  · simp only [List.length_append, List.length_nil]
    omega
  · simp only
    omega

/-! ## Finding the blocks one after the other -/

theorem ne_nil_of_closeComment? {r body after : List Char}
    (h : closeComment? r = some (body, after)) : body ≠ [] := by
  rintro rfl
  fun_cases closeComment? r with
  | case1 r => simp [closeComment?] at h
  | case2 c r hc =>
    rw [closeComment?.eq_2 _ _ hc] at h
    obtain ⟨p, -, hp⟩ := Option.map_eq_some_iff.1 h
    simp at hp
  | case3 => simp [closeComment?] at h

/-- What is closed off as a comment is closed at its end and not before. -/
theorem closeComment?_body {r body after : List Char}
    (h : closeComment? r = some (body, after)) (x : List Char) :
    closeComment? (body ++ x) = some (body, x) := by
  fun_induction closeComment? r generalizing body after with
  | case1 r =>
    simp only [Option.some.injEq, Prod.mk.injEq] at h
    obtain ⟨rfl, -⟩ := h
    rfl
  | case2 c r hc ih =>
    obtain ⟨⟨b, t⟩, hb, hbt⟩ := Option.map_eq_some_iff.1 h
    simp only [Prod.mk.injEq] at hbt
    obtain ⟨rfl, rfl⟩ := hbt
    rw [List.cons_append, closeComment?, ih hb]
    · rfl
    · intro r' hs hr
      have happ := append_of_closeComment? hb
      cases b with
      | nil => exact ne_nil_of_closeComment? hb rfl
      | cons e b =>
        simp only [List.cons_append, List.cons.injEq] at hr happ
        exact hc (b ++ t) hs (by rw [← happ, hr.1])
  | case3 => simp at h

theorem getLast?_of_closeComment? {r body after : List Char}
    (h : closeComment? r = some (body, after)) : body.getLast? = some '/' := by
  fun_induction closeComment? r generalizing body after with
  | case1 r =>
    simp only [Option.some.injEq, Prod.mk.injEq] at h
    rw [← h.1]
    rfl
  | case2 c r hc ih =>
    obtain ⟨⟨b, t⟩, hb, hbt⟩ := Option.map_eq_some_iff.1 h
    simp only [Prod.mk.injEq] at hbt
    rw [← hbt.1, List.getLast?_cons, ih hb]
    rfl
  | case3 => simp at h

/-- A comment that is cut short is not closed. -/
theorem closeComment?_of_lt {r p q after : List Char}
    (h : closeComment? r = some (p ++ q, after)) (hq : q ≠ []) : closeComment? p = none := by
  cases hp : closeComment? p with
  | none => rfl
  | some x =>
    obtain ⟨b, t⟩ := x
    have h₁ := Scan.closeComment?_append hp (q ++ after)
    have h₂ := append_of_closeComment? h
    rw [← List.append_assoc, h₂, h] at h₁
    simp only [Option.some.injEq, Prod.mk.injEq] at h₁
    have h₃ := congrArg List.length (append_of_closeComment? hp)
    have h₄ := congrArg List.length h₁.1
    have h₅ := List.length_pos_iff.2 hq
    simp only [List.length_append] at h₃ h₄
    omega

theorem run_closed {r body after : List Char} (h : closeComment? r = some (body, after))
    (d : Nat) (x : List Char) :
    Scan.run ⟨.code, d⟩ ('/' :: '*' :: (body ++ x)) = Scan.run ⟨.code, d⟩ x :=
  Scan.run_block_of_closeComment? d (closeComment?_body h x)

theorem run_splitLine {r x z : List Char} (d : Nat) (h : (splitLine r).2 = x ++ '/' :: z) :
    Scan.run ⟨.line, d⟩ ((splitLine r).1 ++ x) = Scan.run ⟨.code, d⟩ x := by
  have hx : ∃ y, x = '\n' :: y := by
    rcases Scan.splitLine_rest r with hr | ⟨y, hr⟩
    · rw [hr] at h
      simp at h
    · rw [hr] at h
      cases x with
      | nil => simp at h
      | cons c x => exact ⟨x, by rw [(List.cons.inj h).1]⟩
  obtain ⟨y, rfl⟩ := hx
  have hn : ∀ s : List Char, (∀ c ∈ s, c ≠ '\n') →
      Scan.run ⟨.line, d⟩ (s ++ '\n' :: y) = Scan.run ⟨.code, d⟩ ('\n' :: y) := by
    intro s hs
    induction s with
    | nil => rfl
    | cons c s ih =>
      have hc : c ≠ '\n' := hs c (by simp)
      rw [List.cons_append, Scan.run_cons, ← ih fun e he => hs e (by simp [he])]
      simp [Scan.next, Mode.next, Mode.isOutside, hc]
  refine hn _ fun c hc => ?_
  simpa using List.mem_takeWhile_imp hc

theorem run_splitLiteral {quote : Char} {r x z : List Char} (d : Nat) (hq : quote ≠ '\\')
    (h : (splitLiteral quote r).2 = x ++ '/' :: z) :
    Scan.run ⟨.literal quote, d⟩ ((splitLiteral quote r).1 ++ x) = Scan.run ⟨.code, d⟩ x := by
  fun_induction splitLiteral quote r with
  | case1 => simp at h
  | case2 c r p ih => exact ih h
  | case3 r hc => simp [Scan.next, Mode.next, Mode.isOutside, hq]
  | case4 r hc hcq =>
    cases x with
    | nil => simp at h
    | cons c x =>
      rw [← (List.cons.inj h).1]
      simp [Scan.next, Mode.next, Mode.ofCode, Mode.isOutside, braceDepth]
  | case5 c r hc hcq hlf p ih =>
    have hs : c ≠ '\\' := by
      rintro rfl
      cases r with
      | nil => simp [p, splitLiteral] at h
      | cons e r => exact hc e r rfl rfl
    rw [List.cons_append, Scan.run_cons, ← ih h]
    simp [Scan.next, Mode.next, Mode.isOutside, hs, hcq, hlf, p]

/-- The ways an outline can start, in a text that starts inside `d` braces. -/
inductive FirstBlock (d : Nat) (s : List Char) : Prop where
  /-- There is no block. -/
  | none (h : outlineFrom d s = ⟨s, [], []⟩)
  /-- A comment that is never closed comes before any block. -/
  | unclosed (lead r : List Char) (hs : s = lead ++ '/' :: '*' :: r)
      (hm : (Scan.run ⟨.code, d⟩ lead).mode = .code) (hr : closeComment? r = Option.none)
      (h : outlineFrom d s = ⟨lead, [], '/' :: '*' :: r⟩)
  /-- The first block stands outside all braces, and the outline goes on behind it. -/
  | block (lead r body after : List Char) (hs : s = lead ++ '/' :: '*' :: '*' :: r)
      (hl : Scan.run ⟨.code, d⟩ lead = ⟨.code, 0⟩)
      (hr : closeComment? ('*' :: r) = some (body, after))
      (h : outlineFrom d s = ((outlineFrom 0 after).document ('/' :: '*' :: body)).push lead)

theorem Outline.push_push (s t : List Char) (o : Outline) :
    (o.push t).push s = o.push (s ++ t) := by
  simp [Outline.push]

/-- Text in front that takes the scan from `d` to `e` braces, up to any slash behind it. -/
theorem FirstBlock.push {d e : Nat} {s : List Char} (h : FirstBlock e s) (piece : List Char)
    (hp : ∀ x z, s = x ++ '/' :: z →
      Scan.run ⟨.code, d⟩ (piece ++ x) = Scan.run ⟨.code, e⟩ x)
    (ho : outlineFrom d (piece ++ s) = (outlineFrom e s).push piece) :
    FirstBlock d (piece ++ s) := by
  cases h with
  | none h =>
    rw [h] at ho
    exact .none ho
  | unclosed lead r hs hm hr h =>
    rw [h] at ho
    refine .unclosed (piece ++ lead) r (by rw [hs, List.append_assoc]) ?_ hr ho
    rw [hp lead ('*' :: r) hs]
    exact hm
  | block lead r body after hs hl hr h =>
    rw [h, Outline.push_push] at ho
    refine .block (piece ++ lead) r body after (by rw [hs, List.append_assoc]) ?_ hr ho
    rw [hp lead ('*' :: '*' :: r) hs]
    exact hl

theorem firstBlock (d : Nat) (s : List Char) : FirstBlock d s := by
  fun_induction outlineFrom d s with
  | case1 d r ih =>
    have happ : '/' :: '/' :: r = '/' :: '/' :: (splitLine r).1 ++ (splitLine r).2 := by
      rw [List.cons_append, List.cons_append, append_splitLine]
    rw [happ]
    refine ih.push _ (fun x z hx => run_splitLine d hx) ?_
    rw [← happ, outlineFrom_line]
  | case2 d r body after h o comment hc ih =>
    obtain ⟨rfl, hs⟩ := hc
    cases r with
    | nil => simp at hs
    | cons c r =>
      obtain rfl : c = '*' := by simpa using hs
      refine .block [] r body after rfl rfl h ?_
      rw [outlineFrom_block 0 h, if_pos ⟨rfl, rfl⟩]
      rfl
  | case3 d r body after h o comment hc ih =>
    have happ : '/' :: '*' :: r = '/' :: '*' :: body ++ after := by
      rw [List.cons_append, List.cons_append, append_of_closeComment? h]
    rw [happ]
    refine ih.push _ (fun x z _ => run_closed h d x) ?_
    rw [← happ, outlineFrom_block d h, if_neg hc]
  | case4 d r h =>
    exact .unclosed [] r rfl rfl h (outlineFrom_of_closeComment?_eq_none d h)
  | case5 d c r h₁ h₂ hq ih =>
    have hc : c ≠ '\\' := by rcases hq with rfl | rfl <;> decide
    have happ : c :: r = c :: (splitLiteral c r).1 ++ (splitLiteral c r).2 := by
      rw [List.cons_append, append_splitLiteral]
    rw [happ]
    refine ih.push _ (fun x z hx => ?_) ?_
    · have hn : Scan.next ⟨.code, d⟩ c = ⟨.literal c, d⟩ := by
        rcases hq with rfl | rfl <;> rfl
      rw [List.cons_append, Scan.run_cons, hn]
      exact run_splitLiteral d hc hx
    · rw [← happ, outlineFrom_cons d (opensComment_eq_false_iff.2 ⟨h₁, h₂⟩), if_pos hq]
  | case6 d c r h₁ h₂ hq ih =>
    refine ih.push [c] (fun x z hx => ?_) ?_
    · subst hx
      by_cases hc : c = '/'
      · subst hc
        cases x with
        | nil => exact absurd rfl (h₁ z rfl)
        | cons e x =>
          have ho : opensComment ('/' :: e :: x) = false := by
            simpa [opensComment] using opensComment_eq_false_iff.2 ⟨h₁, h₂⟩
          exact Scan.run_slash ho d
      · simp only [not_or] at hq
        simp [Scan.next, Mode.next, Mode.ofCode, Mode.isOutside, hc, hq]
    · rw [List.singleton_append, outlineFrom_cons d (opensComment_eq_false_iff.2 ⟨h₁, h₂⟩),
        if_neg hq]
  | case7 d => exact .none (by rw [outlineFrom])

/-- What follows the text before the first block is nothing or starts a comment in code. -/
theorem exists_lead_append (d : Nat) (s : List Char) :
    ∃ rest, s = (outlineFrom d s).lead ++ rest ∧
      (rest = [] ∨ (Scan.run ⟨.code, d⟩ (outlineFrom d s).lead).mode = .code ∧
        ∃ z, rest = '/' :: z) := by
  cases firstBlock d s with
  | none h =>
    rw [h]
    exact ⟨[], by simp, Or.inl rfl⟩
  | unclosed lead r hs hm hr h =>
    rw [h]
    exact ⟨'/' :: '*' :: r, hs, Or.inr ⟨hm, _, rfl⟩⟩
  | block lead r body after hs hl hr h =>
    rw [h]
    refine ⟨'/' :: '*' :: '*' :: r, by simpa [Outline.push, Outline.document] using hs,
      Or.inr ⟨?_, _, rfl⟩⟩
    simpa [Outline.push, Outline.document] using congrArg Scan.mode hl

/-! ## Blocks of a whole text -/

/-- `block` is a top-level documentation block of a source text, with `before` in front of
    it and `after` behind it: a scan of `before` ends in code outside all braces, and the
    block opens with a slash and two stars and ends with its first star-slash. -/
structure DocBlock (source before block after : List Char) : Prop where
  append_eq : before ++ (block ++ after) = source
  scan_before : scan before = ⟨.code, 0⟩
  opens : ['/', '*', '*'] <+: block
  closes : closeComment? (block.drop 2 ++ after) = some (block.drop 2, after)

namespace DocBlock

variable {source before block after : List Char}

theorem block_eq (h : DocBlock source before block after) :
    block = '/' :: '*' :: block.drop 2 := by
  obtain ⟨r, rfl⟩ := h.opens
  rfl

theorem run_block (h : DocBlock source before block after) (x : List Char) :
    Scan.run ⟨.code, 0⟩ (block ++ x) = Scan.run ⟨.code, 0⟩ x := by
  rw [h.block_eq]
  exact run_closed h.closes 0 x

/-- A block ends with a slash, so that no word runs from it into what follows. -/
theorem getLast?_block (h : DocBlock source before block after) : block.getLast? = some '/' := by
  rw [h.block_eq, List.getLast?_cons, List.getLast?_cons, getLast?_of_closeComment? h.closes]
  rfl

/-- The scan stays inside a block until the block ends. -/
theorem isOutside_of_lt (h : DocBlock source before block after) {x y : List Char}
    (hx : x ≠ []) (hy : y ≠ []) (hb : block = x ++ y) :
    (Scan.run ⟨.code, 0⟩ x).mode ≠ .code := by
  have hbl := h.block_eq
  cases x with
  | nil => exact absurd rfl hx
  | cons c x =>
    rw [hb] at hbl
    obtain rfl : c = '/' := (List.cons.inj hbl).1
    cases x with
    | nil => simp [Scan.next, Mode.next, Mode.ofCode]
    | cons e p =>
      obtain rfl : e = '*' := (List.cons.inj (List.cons.inj hbl).2).1
      have hc := h.closes
      rw [hb, List.cons_append, List.cons_append, List.drop_succ_cons, List.drop_succ_cons,
        List.drop_zero] at hc
      have hn := Scan.run_block_of_closeComment?_eq_none 0 (closeComment?_of_lt hc hy)
      have hr : Scan.run ⟨.code, 0⟩ ('/' :: '*' :: p) = Scan.run ⟨.block, 0⟩ p := rfl
      intro hm
      rw [hr] at hm
      rw [hm] at hn
      simp [Mode.isOutside] at hn

/-- The text of a chunk reaches up to the next block of the whole text, if not further. -/
theorem length_lead_le (h : DocBlock source before block after)
    {before' block' after' : List Char} (h' : DocBlock source before' block' after')
    (hlt : before.length < before'.length) :
    (before ++ (block ++ (outlineFrom 0 after).lead)).length ≤ before'.length := by
  have heq : before' ++ (block' ++ after') = before ++ (block ++ after) := by
    rw [h.append_eq, h'.append_eq]
  obtain ⟨x, rfl, hx⟩ | ⟨x, rfl, hx⟩ := List.append_eq_append_iff.1 heq
  · simp only [List.length_append] at hlt
    omega
  have hscan : Scan.run ⟨.code, 0⟩ x = ⟨.code, 0⟩ := by
    have := h'.scan_before
    rw [scan, Scan.run_append] at this
    rwa [show Scan.run {} before = ⟨.code, 0⟩ from h.scan_before] at this
  have hne : x ≠ [] := by
    rintro rfl
    simp at hlt
  have main : ∀ y, x = block ++ y → after = y ++ (block' ++ after') →
      (before ++ (block ++ (outlineFrom 0 after).lead)).length ≤ (before ++ x).length := by
    rintro y rfl rfl
    rw [h.run_block] at hscan
    have hl := length_lead_append_doc hscan h'.opens after'
    simp only [List.length_append]
    omega
  obtain ⟨y, hk, hy⟩ | ⟨y, hk, hy⟩ := List.append_eq_append_iff.1 hx
  · exact main y hk hy
  · -- a block that starts inside another would have to find the scan in code there
    by_cases hyn : y = []
    · subst hyn
      exact main [] (by simpa using hk.symm) (by simpa using hy.symm)
    · exact absurd (congrArg Scan.mode hscan) (h.isOutside_of_lt hne hyn hk)

end DocBlock

/-! ## The places of all blocks -/

/-- Where a documentation block stands in a source text. -/
structure Place where
  before : List Char
  block : List Char
  after : List Char

/-- The chunk that a block makes. -/
def Place.chunk (p : Place) : Chunk :=
  ⟨p.block, (outlineFrom 0 p.after).lead⟩

/-- The first block of an outline is a block of the whole text. -/
theorem DocBlock.of_firstBlock {d : Nat} {front lead r body after : List Char}
    (hf : scan front = ⟨.code, d⟩) (hl : Scan.run ⟨.code, d⟩ lead = ⟨.code, 0⟩)
    (hr : closeComment? ('*' :: r) = some (body, after)) :
    DocBlock (front ++ (lead ++ '/' :: '*' :: '*' :: r)) (front ++ lead) ('/' :: '*' :: body)
      after := by
  have hbody := append_of_closeComment? hr
  refine ⟨?_, ?_, ?_, ?_⟩
  · rw [← hbody]
    simp
  · rw [scan, Scan.run_append]
    rw [show Scan.run {} front = ⟨.code, d⟩ from hf]
    exact hl
  · cases body with
    | nil => exact absurd rfl (ne_nil_of_closeComment? hr)
    | cons c body =>
      obtain rfl : c = '*' := (List.cons.inj hbody).1
      exact ⟨body, rfl⟩
  · exact closeComment?_body hr after

/-- The chunks of an outline are made by blocks that follow each other in the text, and
    behind the last block there is no other. -/
theorem exists_places (n : Nat) : ∀ (d : Nat) (front s : List Char),
    s.length ≤ n → scan front = ⟨.code, d⟩ →
    ∃ ps : List Place, (outlineFrom d s).chunks = ps.map Place.chunk ∧
      ps.Pairwise (fun p q => p.before.length < q.before.length) ∧
      (∀ p ∈ ps, DocBlock (front ++ s) p.before p.block p.after ∧
        front.length ≤ p.before.length) ∧
      ∀ p ∈ ps.getLast?, (outlineFrom 0 p.after).chunks = [] := by
  induction n with
  | zero =>
    intro d front s hs _
    obtain rfl := List.length_eq_zero_iff.1 (Nat.le_zero.1 hs)
    exact ⟨[], by rw [outlineFrom]; rfl, .nil, by simp, by simp⟩
  | succ n ih =>
    intro d front s hs hscan
    cases firstBlock d s with
    | none h => exact ⟨[], by rw [h]; rfl, .nil, by simp, by simp⟩
    | unclosed lead r _ _ _ h => exact ⟨[], by rw [h]; rfl, .nil, by simp, by simp⟩
    | block lead r body after hs' hl hr h =>
      subst hs'
      have hdoc := DocBlock.of_firstBlock hscan hl hr
      have hafter : after.length ≤ n := by
        have h₁ := congrArg List.length (append_of_closeComment? hr)
        simp only [List.length_append, List.length_cons] at h₁ hs
        omega
      have hscan' : scan (front ++ lead ++ '/' :: '*' :: body) = ⟨.code, 0⟩ := by
        have hrun := hdoc.run_block []
        rw [List.append_nil] at hrun
        rw [scan, Scan.run_append, show Scan.run {} (front ++ lead) = ⟨.code, 0⟩ from
          hdoc.scan_before, hrun]
        rfl
      obtain ⟨ps, hps, hpair, hall, hlast⟩ := ih 0 _ after hafter hscan'
      rw [List.append_assoc (front ++ lead), hdoc.append_eq] at hall
      refine ⟨⟨front ++ lead, '/' :: '*' :: body, after⟩ :: ps, ?_, .cons ?_ hpair, ?_, ?_⟩
      · rw [h, List.map_cons, ← hps]
        rfl
      · intro p hp
        have := (hall p hp).2
        simp only [List.length_append, List.length_cons] at this ⊢
        omega
      · intro p hp
        rcases List.mem_cons.1 hp with rfl | hp
        · refine ⟨hdoc, ?_⟩
          rw [List.length_append]
          omega
        · refine ⟨(hall p hp).1, ?_⟩
          have := (hall p hp).2
          simp only [List.length_append, List.length_cons] at this
          omega
      · cases ps with
        | nil =>
          intro p hp
          obtain rfl : _ = p := Option.some.inj hp
          simpa using hps
        | cons q qs => simpa using hlast

/-! ## The tokens of a chunk -/

theorem ne_of_isBlank {c e : Char} (h : Text.isBlank c = true) (he : Text.isBlank e = false) :
    c ≠ e := by
  rintro rfl
  rw [h] at he
  simp at he

theorem Scan.next_of_isBlank {c : Char} (h : Text.isBlank c = true) (d : Nat) :
    Scan.next ⟨.code, d⟩ c = ⟨.code, d⟩ := by
  have h₁ : c ≠ '/' := ne_of_isBlank h (by decide)
  have h₂ : c ≠ '"' := ne_of_isBlank h (by decide)
  have h₃ : c ≠ '\'' := ne_of_isBlank h (by decide)
  have h₄ : c ≠ '{' := ne_of_isBlank h (by decide)
  have h₅ : c ≠ '}' := ne_of_isBlank h (by decide)
  simp [Scan.next, Mode.next, Mode.ofCode, Mode.isOutside, braceDepth, h₁, h₂, h₃, h₄, h₅]

theorem Scan.run_of_isBlank {x : List Char} (h : ∀ c ∈ x, Text.isBlank c = true) (d : Nat)
    (y : List Char) : Scan.run ⟨.code, d⟩ (x ++ y) = Scan.run ⟨.code, d⟩ y := by
  induction x with
  | nil => rfl
  | cons c x ih =>
    rw [List.cons_append, Scan.run_cons, Scan.next_of_isBlank (h c (by simp))]
    exact ih fun e he => h e (by simp [he])

theorem isNumberChar_of_isBlank {c : Char} (h : Text.isBlank c = true) :
    isNumberChar c = false := by
  cases hn : isNumberChar c with
  | false => rfl
  | true =>
    have h₀ : c.toNat = c.val.toNat := rfl
    simp only [Text.isBlank, Bool.or_eq_true, Bool.and_eq_true, decide_eq_true_eq,
      beq_iff_eq] at h
    unfold isNumberChar Char.isAlphanum Char.isAlpha Char.isUpper Char.isLower Char.isDigit at hn
    simp only [Bool.or_eq_true, Bool.and_eq_true, decide_eq_true_eq, UInt32.le_iff_toNat_le,
      ge_iff_le] at hn
    rcases hn with (((hn | hn) | hn) | rfl) | rfl
    · have h₁ : 'A'.val.toNat = 65 := rfl
      have h₂ : 'Z'.val.toNat = 90 := rfl
      omega
    · have h₁ : 'a'.val.toNat = 97 := rfl
      have h₂ : 'z'.val.toNat = 122 := rfl
      omega
    · have h₁ : '0'.val.toNat = 48 := rfl
      have h₂ : '9'.val.toNat = 57 := rfl
      omega
    · simp at h
    · simp at h

theorem Lexed.tokens_behind (gap : List Char) (l : Lexed) :
    (l.behind gap).tokens = l.tokens.modifyHead (Token.behind gap) := by
  obtain ⟨ts, tail⟩ := l
  cases ts <;> rfl

/-- The first token of a text is read alike whether or not a token came before it, but
    for the flag that it opens a line. -/
theorem tokens_lexFrom (first : Bool) (s : List Char) :
    (lexFrom first s).tokens
      = (tokens s).modifyHead fun t => { t with opensLine := first || t.gap.contains '\n' } := by
  unfold tokens lex
  cases h : (splitGap s).2 with
  | nil => rw [lexFrom_of_splitGap_nil first h, lexFrom_of_splitGap_nil true h]; rfl
  | cons c r =>
    have hg : splitGap s = ((splitGap s).1, c :: r) := Prod.ext rfl h
    rw [lexFrom_of_splitGap_cons first hg, lexFrom_of_splitGap_cons true hg]
    rfl

theorem tail_lexFrom (first : Bool) (s : List Char) : (lexFrom first s).tail = (lex s).tail := by
  unfold lex
  cases h : (splitGap s).2 with
  | nil => rw [lexFrom_of_splitGap_nil first h, lexFrom_of_splitGap_nil true h]
  | cons c r =>
    have hg : splitGap s = ((splitGap s).1, c :: r) := Prod.ext rfl h
    rw [lexFrom_of_splitGap_cons first hg, lexFrom_of_splitGap_cons true hg]

/-- Tokens stay what they are when a text follows that starts with a comment. -/
theorem exists_tokens_append (first : Bool) {code rest : List Char}
    (h : rest = [] ∨ (scan code).mode = .code ∧ ∃ z, rest = '/' :: z) :
    ∃ more, (rest = [] → more = []) ∧
      (lexFrom first (code ++ rest)).tokens = (lexFrom first code).tokens ++ more := by
  rcases h with rfl | ⟨hm, z, rfl⟩
  · exact ⟨[], fun _ => rfl, by simp⟩
  · have hc : (Scan.run ⟨.code, 0⟩ code).CutsAt ('/' :: z) := Or.inl hm
    rw [lexFrom_append first hc (Detached.slash code z)]
    exact ⟨_, fun h => absurd h (by simp), rfl⟩

/-- The tokens of a code are tokens of every text that holds it between a complete part
    and a comment, in order and with nothing between them. Only the gap before the first
    one grows by the end of the part before. -/
theorem exists_tokens_of_code {front code rest : List Char} (hf : (scan front).mode = .code)
    (hd : Detached front (code ++ rest))
    (hr : rest = [] ∨ (scan code).mode = .code ∧ ∃ z, rest = '/' :: z) :
    ∃ (opensLine : Token → Bool) (more : List Token), (rest = [] → more = []) ∧
      tokens (front ++ (code ++ rest)) = tokens front ++ ((tokens code).modifyHead fun t =>
          { t with gap := (lex front).tail ++ t.gap, opensLine := opensLine t }) ++ more := by
  have hc : (Scan.run ⟨.code, 0⟩ front).CutsAt (code ++ rest) := Or.inl hf
  obtain ⟨more, hnil, hm⟩ := exists_tokens_append (true && (tokens front).isEmpty) hr
  have happ := lexFrom_append true hc hd
  have htail : (lexFrom true front).tail = (lex front).tail := rfl
  have hfront : (lexFrom true front).tokens = tokens front := rfl
  rw [hfront, htail] at happ
  have htokens : tokens (front ++ (code ++ rest)) = tokens front
      ++ ((lexFrom (true && (tokens front).isEmpty) code).tokens ++ more).modifyHead
        (Token.behind (lex front).tail) := by
    rw [← hm, ← Lexed.tokens_behind]
    exact congrArg Lexed.tokens happ
  rw [htokens, tokens_lexFrom]
  cases tokens code with
  | nil =>
    refine ⟨fun _ => true, more.modifyHead (Token.behind (lex front).tail), ?_, by simp⟩
    intro h
    rw [hnil h]
    rfl
  | cons t ts =>
    refine ⟨fun t => (true && (tokens front).isEmpty || t.gap.contains '\n')
      || (lex front).tail.contains '\n', more, hnil, ?_⟩
    simp [Token.behind]

/-- Behind a block and blanks the scan starts anew. -/
theorem DocBlock.scan_blanks {source before block after x : List Char}
    (h : DocBlock source before block after) (hx : ∀ c ∈ x, Text.isBlank c = true) :
    scan (before ++ (block ++ x)) = ⟨.code, 0⟩ := by
  have hblanks := Scan.run_of_isBlank hx 0 []
  rw [List.append_nil] at hblanks
  rw [scan, Scan.run_append, show Scan.run {} before = ⟨.code, 0⟩ from h.scan_before,
    h.run_block, hblanks]
  rfl

/-- No word runs from a block, or from blanks behind it, into what follows. -/
theorem DocBlock.detached_blanks {source before block after x : List Char}
    (h : DocBlock source before block after) (hx : ∀ c ∈ x, Text.isBlank c = true)
    (y : List Char) : Detached (before ++ (block ++ x)) y := by
  intro c hc e _ hn
  have hc' : c = '/' ∨ Text.isBlank c = true := by
    rw [List.getLast?_append, List.getLast?_append, h.getLast?_block, Option.mem_def] at hc
    cases hw : x.getLast? with
    | none =>
      rw [hw] at hc
      exact Or.inl (Option.some.inj hc).symm
    | some w =>
      rw [hw] at hc
      obtain rfl : w = c := Option.some.inj hc
      exact Or.inr (hx w (List.mem_of_getLast? hw))
  rcases hc' with rfl | hc'
  · simp [isNumberChar] at hn
  · rw [isNumberChar_of_isBlank hc'] at hn
    simp at hn

/-- A block and the code behind it in the whole text: the part `front` reaches through the
    blanks behind the block, and the tokens of the code are tokens of the whole text. -/
theorem DocBlock.exists_front {source before block after : List Char}
    (h : DocBlock source before block after) :
    ∃ front rest, source = front ++ (Text.trimStart (outlineFrom 0 after).lead ++ rest) ∧
      front ++ Text.trimStart (outlineFrom 0 after).lead
        = before ++ (block ++ (outlineFrom 0 after).lead) ∧
      (before ++ block).length ≤ front.length ∧ scan front = ⟨.code, 0⟩ ∧
      ∃ (opensLine : Token → Bool) (more : List Token), (rest = [] → more = []) ∧
        tokens source = tokens front
          ++ ((tokens (Text.trimStart (outlineFrom 0 after).lead)).modifyHead fun t =>
            { t with gap := (lex front).tail ++ t.gap, opensLine := opensLine t }) ++ more := by
  obtain ⟨rest, hafter, hrest⟩ := exists_lead_append 0 after
  have hsource := h.append_eq
  rw [hafter] at hsource
  generalize hb : (outlineFrom 0 after).lead = body at *
  have hbody : body.takeWhile Text.isBlank ++ Text.trimStart body = body :=
    List.takeWhile_append_dropWhile
  have hblank : ∀ c ∈ body.takeWhile Text.isBlank, Text.isBlank c = true :=
    fun c hc => List.mem_takeWhile_imp hc
  have hcode : Scan.run ⟨.code, 0⟩ body = scan (Text.trimStart body) := by
    rw [← hbody, Scan.run_of_isBlank hblank, hbody]
    rfl
  have hscan := h.scan_blanks hblank
  have hdetached := h.detached_blanks hblank
  have hsplit : source = before ++ (block ++ body.takeWhile Text.isBlank)
      ++ (Text.trimStart body ++ rest) := by
    have happ : body ++ rest = body.takeWhile Text.isBlank ++ (Text.trimStart body ++ rest) := by
      rw [← List.append_assoc, hbody]
    rw [← hsource, happ]
    simp only [List.append_assoc]
  refine ⟨before ++ (block ++ body.takeWhile Text.isBlank), rest, hsplit, ?_, ?_, hscan, ?_⟩
  · rw [List.append_assoc, List.append_assoc, hbody]
  · simp only [List.length_append]
    omega
  · rw [hcode] at hrest
    rw [hsplit]
    exact exists_tokens_of_code (congrArg Scan.mode hscan) (hdetached _) hrest

end PawnApi.Source
