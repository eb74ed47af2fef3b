/-
  PawnApi.Proofs.Nesting

  Blocks inside a methodmap body.

  Two bodies that differ only in what a nested block holds are read in step. After each
  step both readings stand at the same place before the block, or both are past it and see
  the same tokens (`Alike`). A step may fail or succeed, and what stands before the block
  need not be well formed: it only has to close the brackets that it opens (`Enclosed`). So
  nothing inside the block is ever read (`methodmap_block`).
-/
import PawnApi.Proofs.Bodies
import PawnApi.Proofs.Members

namespace PawnApi.Source

/-- Whether every bracket that the tokens open is closed by them. -/
structure Enclosed (ts : List Token) : Prop where
  braces : GroupsClosed '{' '}' ts
  parens : GroupsClosed '(' ')' ts
  squares : GroupsClosed '[' ']' ts

instance (ts : List Token) : Decidable (Enclosed ts) :=
  decidable_of_iff (GroupsClosed '{' '}' ts ∧ GroupsClosed '(' ')' ts ∧ GroupsClosed '[' ']' ts)
    ⟨fun h => ⟨h.1, h.2.1, h.2.2⟩, fun h => ⟨h.braces, h.parens, h.squares⟩⟩

theorem Enclosed.of_suffix {ts us : List Token} (h : Enclosed ts) (hs : us <:+ ts) :
    Enclosed us :=
  ⟨h.braces.of_suffix hs, h.parens.of_suffix hs, h.squares.of_suffix hs⟩

/-- Whether a text can stand between braces: a scan of it ends outside comments and
    literals, and it closes the braces that it opens and no others. -/
structure ClosedText (text : List Char) : Prop where
  isOutside : (scan text).mode.isOutside = true
  balanced : Balanced '{' '}' (tokens text)

/-- The tokens of a text with a block in it. -/
theorem exists_tokens_block {pre body : List Char} (ho : (scan pre).mode.isOutside = true)
    (hb : ClosedText body) : ∃ b : Bracketed '{' '}', ∀ post,
      tokens (pre ++ '{' :: body ++ '}' :: post)
        = tokens pre ++ (b.tokens ++ (lexFrom false post).tokens) := by
  obtain ⟨o, hopen, htokens⟩ := exists_tokens_braces ho
  obtain ⟨bs, c, hbs, hc, hts⟩ := htokens body hb.isOutside hb.balanced
  refine ⟨⟨o, bs, c, hopen, hbs, hc⟩, fun post => ?_⟩
  rw [List.append_assoc, List.cons_append, hts]
  simp [Bracketed.tokens]

end PawnApi.Source

namespace PawnApi.Declaration

open PawnApi.Source

/-! ## Two readings in step -/

/-- Whether two readings that started at `w`, in front of one block or the other, have come
    to the same place: before the blocks, or behind them. -/
def Alike (b b' : Bracketed '{' '}') (vs w r r' : List Token) : Prop :=
  r = r' ∨ ∃ u, u <:+ w ∧ r = u ++ (b.tokens ++ vs) ∧ r' = u ++ (b'.tokens ++ vs)

theorem Alike.of_suffix {b b' : Bracketed '{' '}'} {vs u w r r' : List Token}
    (h : Alike b b' vs u r r') (hs : u <:+ w) : Alike b b' vs w r r' := by
  rcases h with h | ⟨x, hx, hr, hr'⟩
  · exact Or.inl h
  · exact Or.inr ⟨x, hx.trans hs, hr, hr'⟩

/-- A group that opens before a block is closed before it. -/
theorem exists_closeGroup?_append {t : Token} {w : List Token} (hw : Enclosed (t :: w))
    (ht : t.isPunct '{' = true) :
    ∃ g : Group, g.rest <:+ w ∧ ∀ us, closeGroup? '{' '}' 0 (w ++ us) = some (g.frame us) := by
  obtain ⟨g, hg⟩ := hw.braces.exists_closeGroup? ht
  refine ⟨g, ⟨g.inside ++ [g.closer], ?_⟩, closeGroup?_append hg⟩
  rw [List.append_assoc, List.singleton_append, append_of_closeGroup? hg]

section Step

variable (b b' : Bracketed '{' '}') (vs : List Token) {w : List Token}

/-- Skipping a statement ends before both blocks or takes both. -/
theorem alike_dropStatement (hw : Enclosed w) :
    Alike b b' vs w (dropStatement (w ++ (b.tokens ++ vs)))
      (dropStatement (w ++ (b'.tokens ++ vs))) := by
  induction w with
  | nil =>
    refine Or.inl ?_
    rw [List.nil_append, List.nil_append, dropStatement_block, dropStatement_block]
  | cons t w ih =>
    rw [List.cons_append, List.cons_append, dropStatement, dropStatement]
    split
    · -- a block that opens here is closed before the other ones, which are no semicolons
      obtain ⟨g, hg, hclose⟩ := exists_closeGroup?_append hw ‹_›
      rw [hclose, hclose]
      show Alike b b' vs (t :: w) (dropSemicolon (g.rest ++ _)) (dropSemicolon (g.rest ++ _))
      have hsuffix : g.rest <:+ t :: w := hg.trans (List.suffix_cons t w)
      cases hr : g.rest with
      | nil =>
        have hs := Token.isPunct_of_ne b.isPunct_opener (show '{' ≠ ';' by decide)
        have hs' := Token.isPunct_of_ne b'.isPunct_opener (show '{' ≠ ';' by decide)
        exact Or.inr ⟨[], List.nil_suffix, by simp [dropSemicolon, Bracketed.tokens, hs],
          by simp [dropSemicolon, Bracketed.tokens, hs']⟩
      | cons u us =>
        rw [hr] at hsuffix
        rw [List.cons_append, List.cons_append, dropSemicolon, dropSemicolon]
        split
        · exact Or.inr ⟨us, (List.suffix_cons u us).trans hsuffix, rfl, rfl⟩
        · exact Or.inr ⟨u :: us, hsuffix, rfl, rfl⟩
    split
    · exact Or.inr ⟨w, List.suffix_cons t w, rfl, rfl⟩
    · exact (ih (hw.of_suffix (List.suffix_cons t w))).of_suffix (List.suffix_cons t w)

/-- A header ends in front of both blocks in the same way, and the same is quoted of it. -/
theorem ending?_alike (hw : Enclosed w) :
    Option.Rel (fun e e' => (∃ q, e.1 = q ++ (b.tokens ++ vs) ∧ e'.1 = q ++ (b'.tokens ++ vs)) ∧
        Alike b b' vs w e.2 e'.2)
      (ending? (w ++ (b.tokens ++ vs))) (ending? (w ++ (b'.tokens ++ vs))) := by
  cases w with
  | nil =>
    have hend : ∀ c : Bracketed '{' '}', ending? (c.tokens ++ vs) = some (c.tokens ++ vs, vs) :=
      fun c => (CallEnd.body c).ending?_tokens vs
    rw [List.nil_append, List.nil_append, hend, hend]
    exact .some ⟨⟨[], rfl, rfl⟩, Or.inl rfl⟩
  | cons t w =>
    rw [List.cons_append, List.cons_append, ending?, ending?]
    split
    · exact .some ⟨⟨w, rfl, rfl⟩, Or.inr ⟨w, List.suffix_cons t w, rfl, rfl⟩⟩
    split
    · obtain ⟨g, hg, hclose⟩ := exists_closeGroup?_append hw ‹_›
      rw [hclose, hclose]
      exact .some ⟨⟨t :: w, rfl, rfl⟩, Or.inr ⟨g.rest, hg.trans (List.suffix_cons t w), rfl, rfl⟩⟩
    · exact .none

/-- The same function is read in front of both blocks, or none. -/
theorem function?_alike (hw : Enclosed w) :
    Option.Rel (fun f f' => f.1 = f'.1 ∧ Alike b b' vs w f.2 f'.2)
      (function? true (w ++ (b.tokens ++ vs))) (function? true (w ++ (b'.tokens ++ vs))) := by
  have hhead : ∀ c : Bracketed '{' '}', callHead? true (w ++ (c.tokens ++ vs))
      = (callHead? true w).map (CallHead.frame (c.tokens ++ vs)) := fun c =>
    callHead?_frame c.isPunct_opener _ true hw.squares hw.parens
  rw [function?_eq_bind, function?_eq_bind, hhead b, hhead b']
  cases hh : callHead? true w with
  | none => exact .none
  | some h =>
    have hsuffix := suffix_of_callHead? hh
    have hend := ending?_alike b b' vs (hw.of_suffix hsuffix)
    -- the heads are the same, so all that can differ is how they end
    simp only [Option.map_some, Option.bind_some, CallHead.frame]
    generalize ending? (h.rest ++ (b.tokens ++ vs)) = e at hend
    generalize ending? (h.rest ++ (b'.tokens ++ vs)) = e' at hend
    cases hend with
    | none => exact .none
    | @some e e' hrel =>
      obtain ⟨⟨q, hq, hq'⟩, halike⟩ := hrel
      refine .some ⟨?_, halike.of_suffix hsuffix⟩
      simp only [CallHead.function, hq, hq', quote_append]

theorem propertyFollows?_frame {o : Token} (ho : o.isPunct '{' = true) (x w : List Token) :
    propertyFollows? (w ++ o :: x) = (propertyFollows? w).map (· ++ o :: x) := by
  match w with
  | [] =>
    cases x with
    | nil => rfl
    | cons u x => simp [propertyFollows?, Token.isWord_of_isPunct ho]
  | [t] => simp [propertyFollows?, Token.isWord_of_isPunct ho]
  | t :: u :: w =>
    rw [List.cons_append, List.cons_append, propertyFollows?, propertyFollows?]
    split <;> rfl

theorem property?_frame {o : Token} (ho : o.isPunct '{' = true) (x : List Token)
    (hw : GroupsClosed '[' ']' w) :
    property? (w ++ o :: x) = (property? w).map fun p => (p.1, p.2 ++ o :: x) := by
  rw [property?, property?, typeName?_frame ho x hw]
  cases typeName? w with
  | none => rfl
  | some p =>
    simp only [Option.map_some, Option.bind_eq_bind, Option.bind_some, ident?_frame ho]
    cases ident? p.2 <;> rfl

theorem suffix_of_propertyFollows? {ts rest : List Token} (h : propertyFollows? ts = some rest) :
    rest <:+ ts := by
  unfold propertyFollows? at h
  split at h
  · split at h
    · rw [← Option.some.inj h]
      exact ⟨[_, _], rfl⟩
    · simp at h
  · simp at h

theorem suffix_of_property? {ts rest : List Token} {p : Property}
    (h : property? ts = some (p, rest)) : rest <:+ ts := by
  simp only [property?, Option.bind_eq_bind, Option.bind_eq_some_iff, Option.pure_def,
    Option.some.injEq, Prod.mk.injEq] at h
  obtain ⟨⟨type, r⟩, ht, ⟨name, r'⟩, hn, -, rfl⟩ := h
  exact (suffix_of_ident? hn).trans (suffix_of_typeName? ht)

/-- The same member is read in front of both blocks, or none. -/
theorem memberAt?_alike (hw : Enclosed w) :
    Option.Rel (fun m m' => m.1 = m'.1 ∧ Alike b b' vs w m.2 m'.2)
      (memberAt? (w ++ (b.tokens ++ vs))) (memberAt? (w ++ (b'.tokens ++ vs))) := by
  have hfollows : ∀ c : Bracketed '{' '}', propertyFollows? (w ++ (c.tokens ++ vs))
      = (propertyFollows? w).map (· ++ (c.tokens ++ vs)) := fun c =>
    propertyFollows?_frame c.isPunct_opener _ w
  rw [memberAt?, memberAt?, hfollows b, hfollows b']
  cases hp : propertyFollows? w with
  | none =>
    have hf := function?_alike b b' vs hw
    simp only [Option.map_none]
    generalize function? true (w ++ (b.tokens ++ vs)) = f at hf
    generalize function? true (w ++ (b'.tokens ++ vs)) = f' at hf
    cases hf with
    | none => exact .none
    | some hrel =>
      exact .some ⟨congrArg (fun f => Member.method f.toMethod) hrel.1, hrel.2⟩
  | some rest =>
    have hrest := suffix_of_propertyFollows? hp
    have hproperty : ∀ c : Bracketed '{' '}', property? (rest ++ (c.tokens ++ vs))
        = (property? rest).map fun p => (p.1, p.2 ++ (c.tokens ++ vs)) := fun c =>
      property?_frame c.isPunct_opener _ (hw.squares.of_suffix hrest)
    simp only [Option.map_some, hproperty b, hproperty b', Option.map_map]
    cases hq : property? rest with
    | none => exact .none
    | some p =>
      have hsuffix : p.2 <:+ w := (suffix_of_property? hq).trans hrest
      exact .some ⟨rfl, (alike_dropStatement b b' vs (hw.of_suffix hsuffix)).of_suffix hsuffix⟩

end Step

/-! ## Whole bodies -/

theorem suffix_of_memberAt? {ts rest : List Token} {m : Member}
    (h : memberAt? ts = some (m, rest)) : rest <:+ ts := by
  unfold memberAt? at h
  split at h
  · rename_i hp
    obtain ⟨p, hq, heq⟩ := Option.map_eq_some_iff.1 h
    obtain ⟨-, rfl⟩ := Prod.mk.inj heq
    exact (suffix_dropStatement p.2).trans ((suffix_of_property? hq).trans
      (suffix_of_propertyFollows? hp))
  · obtain ⟨f, hf, heq⟩ := Option.map_eq_some_iff.1 h
    obtain ⟨-, rfl⟩ := Prod.mk.inj heq
    exact suffix_of_function? hf

theorem length_lt_of_memberAt? {ts rest : List Token} {m : Member}
    (h : memberAt? ts = some (m, rest)) : rest.length < ts.length := by
  unfold memberAt? at h
  split at h
  · rename_i hp
    obtain ⟨p, hq, heq⟩ := Option.map_eq_some_iff.1 h
    obtain ⟨-, rfl⟩ := Prod.mk.inj heq
    have h₁ := length_lt_of_propertyFollows? hp
    have h₂ := length_rest_of_property? hq
    have h₃ := length_dropStatement_le p.2
    omega
  · obtain ⟨f, hf, heq⟩ := Option.map_eq_some_iff.1 h
    obtain ⟨-, rfl⟩ := Prod.mk.inj heq
    exact length_after_of_function? hf

/-- What holds of no tokens, and of a body if it holds of what is left of it behind its first
    member or statement, holds of every body. -/
theorem members_induction {P : List Token → Prop} (nil : P [])
    (skip : ∀ t us, memberAt? (t :: us) = none → P (dropStatement (t :: us)) → P (t :: us))
    (member : ∀ t us m rest, memberAt? (t :: us) = some (m, rest) → P rest → P (t :: us))
    (ts : List Token) : P ts := by
  induction hn : ts.length using Nat.strong_induction_on generalizing ts with
  | _ n ih =>
    cases ts with
    | nil => exact nil
    | cons t us =>
      cases hm : memberAt? (t :: us) with
      | none =>
        have hlt := length_dropStatement_lt t us
        exact skip t us hm (ih _ (by omega) _ rfl)
      | some p =>
        have hlt := length_lt_of_memberAt? hm
        exact member t us p.1 p.2 hm (ih _ (by omega) _ rfl)

/-- The members of a body do not depend on what a block in it holds. -/
theorem members_block (b b' : Bracketed '{' '}') (vs : List Token) {w : List Token}
    (hw : Enclosed w) :
    members (w ++ (b.tokens ++ vs)) = members (w ++ (b'.tokens ++ vs)) := by
  induction hn : w.length using Nat.strong_induction_on generalizing w with
  | _ n ih =>
    -- where a step has come to the same place, the induction hypothesis goes on
    have hgo : ∀ {r r' : List Token}, Alike b b' vs w r r' →
        r.length < (w ++ (b.tokens ++ vs)).length → members r = members r' := by
      intro r r' halike hlt
      rcases halike with rfl | ⟨u, hu, rfl, rfl⟩
      · rfl
      · have hlen : u.length < n := by
          simp only [List.length_append] at hlt
          omega
        exact ih u.length hlen (hw.of_suffix hu) rfl
    have hstep := memberAt?_alike b b' vs hw
    cases hm : memberAt? (w ++ (b.tokens ++ vs)) with
    | none =>
      cases hm' : memberAt? (w ++ (b'.tokens ++ vs)) with
      | none =>
        rw [members_of_memberAt?_eq_none hm, members_of_memberAt?_eq_none hm']
        refine hgo (alike_dropStatement b b' vs hw) ?_
        cases w with
        | nil => exact length_dropStatement_lt ..
        | cons t w => exact length_dropStatement_lt ..
      | some m' =>
        rw [hm, hm'] at hstep
        cases hstep
    | some m =>
      cases hm' : memberAt? (w ++ (b'.tokens ++ vs)) with
      | none =>
        rw [hm, hm'] at hstep
        cases hstep
      | some m' =>
        rw [hm, hm'] at hstep
        cases hstep with
        | some hrel =>
          rw [members_of_memberAt? hm, members_of_memberAt? hm', hrel.1,
            hgo hrel.2 (length_lt_of_memberAt? hm)]

/-- **Nested blocks.** In a methodmap body, behind any text that closes the brackets it
    opens and ends outside comments and literals, one closed block is as good as another:
    the methods and properties of the body are the same, whatever the block holds. -/
theorem methodmap_block {pre body body' : List Char} (post : List Char)
    (ho : (scan pre).mode.isOutside = true) (hpre : Enclosed (tokens pre))
    (hb : ClosedText body) (hb' : ClosedText body') :
    methods (tokens (pre ++ '{' :: body ++ '}' :: post))
        = methods (tokens (pre ++ '{' :: body' ++ '}' :: post)) ∧
      properties (tokens (pre ++ '{' :: body ++ '}' :: post))
        = properties (tokens (pre ++ '{' :: body' ++ '}' :: post)) := by
  obtain ⟨b, hts⟩ := exists_tokens_block ho hb
  obtain ⟨b', hts'⟩ := exists_tokens_block ho hb'
  have hmembers := members_block b b' (lexFrom false post).tokens hpre
  rw [← hts, ← hts'] at hmembers
  constructor
  · rw [methods, methods, hmembers]
  · rw [properties, properties, hmembers]

/-- Behind a method without a name and a closing brace too many, a block with a method in
    it stands for an empty one. -/
theorem methodmap_block_malformed :
    methods (tokens ("\x7d public int (); native int A() ".toList ++ '{' :: [] ++ '}' ::
        " native int C(".toList))
      = methods (tokens ("\x7d public int (); native int A() ".toList ++
        '{' :: " native int B(); '\x7d' \x7b ) // \x7d\n \x7d".toList ++ '}' ::
        " native int C(".toList)) :=
  (methodmap_block " native int C(".toList (by decide) (by decide +kernel)
    ⟨by decide, by decide +kernel⟩ ⟨by decide, by decide +kernel⟩).1

end PawnApi.Declaration
