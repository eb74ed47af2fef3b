/-
  PawnApi.Proofs.TypeReaders

  The two readers of types.

  Types of functions, typedefs and properties are written down group by group, each
  dimension trimmed inside; the type of a parameter is the text from its identifier through
  its last bracket without any blank. Both take the same tokens. Without their blanks the two
  texts are the same exactly if no comment stands before a bracket, and as they stand they
  are the same exactly if no dimension has a blank inside either (`typeReaders_agree_iff`).
-/
import PawnApi.Proofs.ParamPhrases
import PawnApi.Proofs.Trimming

namespace PawnApi.Declaration

open PawnApi.Source PawnApi.Text

/-! ## Dimensions -/

/-- A dimension as it is written down: trimmed inside, without what stands before it. -/
def dimensionText (b : Bracketed '[' ']') : List Char :=
  '[' :: trim b.text ++ [']']

theorem text_of_isPunct {t : Token} {c : Char} (h : t.isPunct c = true) : t.text = [c] := by
  simp only [Token.isPunct, Bool.and_eq_true, decide_eq_true_eq] at h
  exact h.2

/-- A dimension with what stands before it, without blanks. -/
theorem unblank_render_dimension (b : Bracketed '[' ']') :
    unblank (Token.render b.tokens) = unblank b.opener.gap ++ unblank (dimensionText b) := by
  have hopen : unblank ['['] = ['['] := rfl
  have hclose : unblank [']'] = [']'] := rfl
  have hrender : Token.render b.tokens = b.opener.gap ++ (['['] ++ (b.text ++ [']'])) := by
    rw [Bracketed.tokens, Bracketed.text, Token.render_cons, Token.render_append,
      Token.render_cons, text_of_isPunct b.isPunct_opener, text_of_isPunct b.isPunct_closer]
    simp
  have htext : dimensionText b = ['['] ++ (trim b.text ++ [']']) := rfl
  rw [hrender, htext]
  simp only [unblank_append, unblank_trim, hopen, hclose]

theorem unblank_dimensionText_eq_self_iff (b : Bracketed '[' ']') :
    unblank (dimensionText b) = dimensionText b ↔ ∀ c ∈ trim b.text, isBlank c = false := by
  have hopen : isBlank '[' = false := by decide
  have hclose : isBlank ']' = false := by decide
  rw [unblank_eq_self_iff, dimensionText]
  constructor
  · intro h c hc
    apply h
    simp [hc]
  · intro h c hc
    simp only [List.cons_append, List.mem_cons, List.mem_append, List.not_mem_nil,
      or_false] at hc
    rcases hc with rfl | hc | rfl
    · exact hopen
    · exact h c hc
    · exact hclose

/-- Dimensions without blanks are as long as they are written down, and longer by what
    stands before the brackets. -/
theorem length_unblank_dimensions (bs : List (Bracketed '[' ']')) :
    (unblank (Token.render (bs.flatMap Bracketed.tokens))).length
      = (unblank (bs.flatMap dimensionText)).length
        + (unblank (bs.flatMap (·.opener.gap))).length := by
  induction bs with
  | nil => rfl
  | cons b bs ih =>
    have hb := congrArg List.length (unblank_render_dimension b)
    simp only [List.flatMap_cons, Token.render_append, unblank_append, List.length_append] at *
    omega

/-- Dimensions are written down alike but for blanks exactly if nothing else than blanks
    stands before the brackets. -/
theorem unblank_dimensions_eq_iff (bs : List (Bracketed '[' ']')) :
    unblank (Token.render (bs.flatMap Bracketed.tokens)) = unblank (bs.flatMap dimensionText) ↔
      ∀ b ∈ bs, ∀ c ∈ b.opener.gap, isBlank c = true := by
  constructor
  · intro h b hb c hc
    have hlength := length_unblank_dimensions bs
    rw [h] at hlength
    have hnil : unblank (bs.flatMap (·.opener.gap)) = [] :=
      List.eq_nil_of_length_eq_zero (by omega)
    exact unblank_eq_nil_iff.1 hnil c (List.mem_flatMap_of_mem hb hc)
  · intro h
    induction bs with
    | nil => rfl
    | cons b bs ih =>
      have hgap : unblank b.opener.gap = [] := unblank_eq_nil_iff.2 (h b List.mem_cons_self)
      have hrest := ih fun b' hb' => h b' (List.mem_cons_of_mem b hb')
      rw [List.flatMap_cons, List.flatMap_cons, Token.render_append, unblank_append,
        unblank_append, unblank_render_dimension, hgap, hrest]
      rfl

namespace TypePhrase

theorem toList_name (p : TypePhrase) :
    p.name.toList = p.word.text ++ p.dims.flatMap dimensionText :=
  String.toList_ofList

theorem toList_typeText (p : TypePhrase) :
    (Param.typeText p).toList
      = unblank p.word.text ++ unblank (Token.render (p.dims.flatMap Bracketed.tokens)) := by
  rw [Param.typeText, String.toList_ofList, tokens, Token.span, ← unblank_append]
  rfl

/-- What is recorded of a type without blanks is the same in both ways of writing it down
    exactly if no comment stands before a bracket. -/
theorem unblank_name_eq_iff (p : TypePhrase) :
    unblank p.name.toList = (Param.typeText p).toList ↔
      ∀ b ∈ p.dims, ∀ c ∈ b.opener.gap, isBlank c = true := by
  rw [toList_name, toList_typeText, unblank_append, List.append_cancel_left_eq, eq_comm]
  exact unblank_dimensions_eq_iff p.dims

/-- A type that starts with a word has no blank in its name exactly if none of its
    dimensions has one inside. -/
theorem unblank_name_eq_self_iff (p : TypePhrase)
    (hword : ∀ c ∈ p.word.text, isBlank c = false) :
    unblank p.name.toList = p.name.toList ↔
      ∀ b ∈ p.dims, ∀ c ∈ trim b.text, isBlank c = false := by
  rw [toList_name, unblank_append, unblank_eq_self_iff.2 hword, List.append_cancel_left_eq,
    unblank_eq_self_iff]
  constructor
  · intro h b hb
    rw [← unblank_dimensionText_eq_self_iff, unblank_eq_self_iff]
    intro c hc
    exact h c (List.mem_flatMap_of_mem hb hc)
  · intro h c hc
    obtain ⟨b, hb, hc⟩ := List.mem_flatMap.1 hc
    have hself := (unblank_dimensionText_eq_self_iff b).2 (h b hb)
    exact unblank_eq_self_iff.1 hself c hc

/-- The two ways of writing a type down are the same exactly if no comment stands before a
    bracket and no dimension has a blank inside. -/
theorem name_eq_typeText_iff (p : TypePhrase) (hword : ∀ c ∈ p.word.text, isBlank c = false) :
    p.name = Param.typeText p ↔
      ∀ b ∈ p.dims, (∀ c ∈ b.opener.gap, isBlank c = true) ∧
        ∀ c ∈ trim b.text, isBlank c = false := by
  rw [← String.toList_inj, forall₂_and, ← p.unblank_name_eq_iff, ← p.unblank_name_eq_self_iff hword]
  constructor
  · intro h
    -- a text that equals one without blanks has none itself
    have hself : unblank p.name.toList = p.name.toList := by
      rw [unblank_eq_self_iff, h]
      intro c hc
      rw [Param.typeText, String.toList_ofList] at hc
      exact isBlank_of_mem_unblank hc
    exact ⟨hself.trans h, hself⟩
  · rintro ⟨htext, hself⟩
    exact hself.symm.trans htext

end TypePhrase

/-! ## The readers -/

/-- A word of a text has no blank in it. -/
theorem isBlank_of_mem_ident {s : List Char} {lead rest : List Token} {t : Token}
    (hs : Source.tokens s = lead ++ t :: rest) (ht : t.kind = .ident) :
    ∀ c ∈ t.text, isBlank c = false := by
  have hform := ((Lexed.lossless_iff.2 rfl).fits lead t rest hs).form
  obtain ⟨c, w, htext, hc, hw⟩ : ∃ c w, t.text = c :: w ∧ isLetter c = true ∧
      ∀ e ∈ w, isIdentChar e = true := by
    rw [ht] at hform
    generalize t.text = text at hform
    cases hform with
    | ident hc hw _ => exact ⟨_, _, rfl, hc, hw⟩
  intro e he
  rw [htext] at he
  apply Print.isBlank_of_isIdentChar
  rcases List.mem_cons.1 he with rfl | he
  · exact isIdentChar_of_isLetter hc
  · exact hw e he

/-- The word at the front of a text has no blank in it. -/
theorem isBlank_of_mem_word {s : List Char} {t : Token} {ts : List Token}
    (hs : Source.tokens s = t :: ts) (ht : t.kind = .ident) :
    ∀ c ∈ t.text, isBlank c = false := by
  have hsplit : Source.tokens s = [] ++ t :: ts := hs
  exact isBlank_of_mem_ident hsplit ht

/-- **Two readings of a type.** A type in front of a name is read from the same tokens by both
    readers. The one for parameters leaves no blank in it. But for blanks the other records
    the same exactly if no comment stands before a bracket, and it records the very same
    text exactly if besides no dimension, trimmed, has a blank inside. -/
theorem typeReaders_agree_iff {s : List Char} {p : TypePhrase} {n : Token} (tags : Doc.Tags)
    (hs : Source.tokens s = p.tokens ++ [n]) (hword : p.word.isWord "const" = false)
    (hn : n.kind = .ident) :
    ∃ (type : String) (q : Param), typeName? (Source.tokens s) = some (type, [n]) ∧
      Param.ofPieceText? tags s = some q ∧ q.name = String.ofList n.text ∧
      (∀ c ∈ q.type.toList, isBlank c = false) ∧
      (unblank type.toList = q.type.toList ↔
        ∀ b ∈ p.dims, ∀ c ∈ b.opener.gap, isBlank c = true) ∧
      (type = q.type ↔ ∀ b ∈ p.dims, (∀ c ∈ b.opener.gap, isBlank c = true) ∧
        ∀ c ∈ trim b.text, isBlank c = false) := by
  have hrest : ∀ t ∈ [n].head?, t.isPunct '[' = false := by
    intro t ht
    obtain rfl : n = t := Option.some.inj ht
    simp [Token.isPunct, hn]
  -- the type and the name make a parameter without a modifier, a reference or a default
  let f : Param.ParamPhrase :=
    ⟨none, p, none, ⟨n, [], hn⟩, none, by simp, fun _ => hword, by simp, by simp⟩
  have hf : Source.tokens s = f.tokens := hs
  refine ⟨p.name, f.param tags, ?_, Param.ofPieceText?_eq_some_iff.2 ⟨f, hf, rfl⟩, rfl, ?_,
    p.unblank_name_eq_iff, p.name_eq_typeText_iff (isBlank_of_mem_word hs p.kind_word)⟩
  · rw [hs]
    exact p.typeName?_eq hrest
  · intro c hc
    rw [show (f.param tags).type = Param.typeText p from rfl, Param.typeText,
      String.toList_ofList] at hc
    exact isBlank_of_mem_unblank hc

/-- A sum in a dimension keeps its blanks in the type of a function and loses them in the
    type of a parameter. -/
theorem typeReaders_agree_iff_sum :
    ∃ (type : String) (q : Param),
      typeName? (Source.tokens "int [ A + B ] x".toList)
        = some (type, [⟨[' '], .ident, ['x'], false⟩]) ∧
      Param.ofPieceText? {} "int [ A + B ] x".toList = some q ∧
      unblank type.toList = q.type.toList ∧ type ≠ q.type := by
  let sum : List Token := [⟨[' '], .ident, ['A'], false⟩, ⟨[' '], .punct, ['+'], false⟩,
    ⟨[' '], .ident, ['B'], false⟩]
  let p : TypePhrase := ⟨⟨[], .ident, "int".toList, true⟩,
    [⟨⟨[' '], .punct, ['['], false⟩, sum, ⟨[' '], .punct, [']'], false⟩, rfl, by decide, rfl⟩], rfl⟩
  have hs : Source.tokens "int [ A + B ] x".toList
      = p.tokens ++ [⟨[' '], .ident, ['x'], false⟩] := by
    decide +kernel
  obtain ⟨type, q, htype, hq, -, -, hunblank, heq⟩ :=
    typeReaders_agree_iff (p := p) {} hs (by decide) rfl
  refine ⟨type, q, htype, hq, hunblank.2 (by decide), fun h => ?_⟩
  have hblank := (heq.1 h _ List.mem_cons_self).2 ' '
  revert hblank
  decide

end PawnApi.Declaration
