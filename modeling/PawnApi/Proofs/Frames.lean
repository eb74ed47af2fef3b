/-
  PawnApi.Proofs.Frames

  Readers that stop at an opening brace.

  A reader of tokens takes what it wants from the front of a list and returns the rest.
  Each reader of a declaration's header is shown to have a frame: behind the tokens that
  it reads may stand an opening brace and anything after it, and the reader returns the
  same with that text added to the rest. The one condition is that the brackets which
  open before the brace also close before it (`GroupsClosed`).
-/
import PawnApi.Declaration.Classify

namespace PawnApi.Source

/-! ## Kinds of tokens -/

namespace Token

theorem isPunct_of_ne {t : Token} {c e : Char} (h : t.isPunct c = true) (hne : c ≠ e) :
    t.isPunct e = false := by
  simp only [isPunct, Bool.and_eq_true, decide_eq_true_eq] at h
  simp [isPunct, h.2, hne]

theorem kind_of_isPunct {t : Token} {c : Char} (h : t.isPunct c = true) : t.kind = .punct := by
  simp only [isPunct, Bool.and_eq_true, decide_eq_true_eq] at h
  exact h.1

theorem ident?_of_isPunct {t : Token} {c : Char} (h : t.isPunct c = true) : t.ident? = none := by
  simp [ident?, kind_of_isPunct h]

theorem isWord_of_isPunct {t : Token} {c : Char} (h : t.isPunct c = true) (w : String) :
    t.isWord w = false := by
  simp [isWord, kind_of_isPunct h]

end Token

/-! ## Groups with more behind them -/

/-- A group with more tokens after it. -/
def Group.frame (us : List Token) (g : Group) : Group :=
  { g with rest := g.rest ++ us }

@[simp] theorem Group.rest_frame (us : List Token) (g : Group) :
    (g.frame us).rest = g.rest ++ us := rfl

@[simp] theorem Group.inside_frame (us : List Token) (g : Group) :
    (g.frame us).inside = g.inside := rfl

@[simp] theorem Group.text_frame (us : List Token) (g : Group) : (g.frame us).text = g.text := rfl

theorem Group.frame_push (us : List Token) (t : Token) (g : Group) :
    (g.push t).frame us = (g.frame us).push t := rfl

/-- What closes a group does not depend on what follows. -/
theorem closeGroup?_append {opn cls : Char} {d : Nat} {ts : List Token} {g : Group}
    (h : closeGroup? opn cls d ts = some g) (us : List Token) :
    closeGroup? opn cls d (ts ++ us) = some (g.frame us) := by
  induction ts generalizing d g with
  | nil => simp [closeGroup?] at h
  | cons t ts ih =>
    have deeper : ∀ e, (closeGroup? opn cls e ts).map (Group.push t) = some g →
        (closeGroup? opn cls e (ts ++ us)).map (Group.push t) = some (g.frame us) := by
      intro e he
      obtain ⟨g', hg', rfl⟩ := Option.map_eq_some_iff.1 he
      rw [ih hg', Option.map_some, Group.frame_push]
    rw [closeGroup?] at h
    rw [List.cons_append, closeGroup?]
    split at h
    · rw [if_pos ‹_›]
      exact deeper _ h
    rw [if_neg ‹_›]
    split at h
    · rw [if_pos ‹_›]
      split at h
      · rw [if_pos ‹_›, ← Option.some.inj h]
        rfl
      · rw [if_neg ‹_›]
        exact deeper _ h
    · rw [if_neg ‹_›]
      exact deeper _ h

/-- Whether every opening bracket has its closing one. -/
def GroupsClosed (opn cls : Char) (ts : List Token) : Prop :=
  ∀ lead t rest, ts = lead ++ t :: rest → t.isPunct opn = true →
    (closeGroup? opn cls 0 rest).isSome = true

namespace GroupsClosed

variable {opn cls : Char} {ts us : List Token}

theorem of_append (h : GroupsClosed opn cls (ts ++ us)) : GroupsClosed opn cls us := by
  intro lead t rest he ht
  refine h (ts ++ lead) t rest ?_ ht
  rw [he, List.append_assoc]

theorem tail {t : Token} (h : GroupsClosed opn cls (t :: ts)) : GroupsClosed opn cls ts :=
  of_append (show GroupsClosed opn cls ([t] ++ ts) from h)

theorem of_suffix (h : GroupsClosed opn cls ts) (hs : us <:+ ts) : GroupsClosed opn cls us := by
  obtain ⟨lead, rfl⟩ := hs
  exact h.of_append

theorem cons_iff {t : Token} : GroupsClosed opn cls (t :: ts) ↔
    (t.isPunct opn = true → (closeGroup? opn cls 0 ts).isSome = true) ∧
      GroupsClosed opn cls ts := by
  refine ⟨fun h => ⟨h [] t ts rfl, h.tail⟩, fun ⟨ht, h⟩ => ?_⟩
  intro lead u rest he hu
  cases lead with
  | nil =>
    obtain ⟨rfl, rfl⟩ := List.cons.inj he
    exact ht hu
  | cons l lead => exact h lead u rest (List.cons.inj he).2 hu

instance decidable (opn cls : Char) : (ts : List Token) → Decidable (GroupsClosed opn cls ts)
  | [] => isTrue (by intro lead t rest he; simp at he)
  | _ :: ts =>
    have := decidable opn cls ts
    decidable_of_iff _ cons_iff.symm

theorem exists_closeGroup? {t : Token} (h : GroupsClosed opn cls (t :: ts))
    (ht : t.isPunct opn = true) : ∃ g, closeGroup? opn cls 0 ts = some g :=
  Option.isSome_iff_exists.1 (h [] t ts rfl ht)

theorem rest_of_closeGroup? {d : Nat} {g : Group} (h : GroupsClosed opn cls ts)
    {o c : Char} (hg : closeGroup? o c d ts = some g) : GroupsClosed opn cls g.rest := by
  refine h.of_suffix ⟨g.inside ++ [g.closer], ?_⟩
  rw [List.append_assoc, List.singleton_append, append_of_closeGroup? hg]

end GroupsClosed

/-! ## Balanced brackets -/

/-- How many groups are open after some tokens, with `depth` open before them; `none` if
    more is closed than was opened. -/
def level? (opn cls : Char) : Nat → List Token → Option Nat
  | depth, [] => some depth
  | depth, t :: ts =>
    if t.isPunct opn then level? opn cls (depth + 1) ts
    else if t.isPunct cls then
      if depth = 0 then none else level? opn cls (depth - 1) ts
    else level? opn cls depth ts

/-- Whether all groups that the tokens open are closed and no others. -/
def Balanced (opn cls : Char) (ts : List Token) : Prop :=
  level? opn cls 0 ts = some 0

instance (opn cls : Char) (ts : List Token) : Decidable (Balanced opn cls ts) :=
  inferInstanceAs (Decidable (level? opn cls 0 ts = some 0))

theorem level?_append (opn cls : Char) (d : Nat) (ts us : List Token) :
    level? opn cls d (ts ++ us) = (level? opn cls d ts).bind fun e => level? opn cls e us := by
  induction ts generalizing d with
  | nil => rfl
  | cons t ts ih =>
    rw [List.cons_append, level?, level?]
    split
    · exact ih _
    split
    · split
      · rfl
      · exact ih _
    · exact ih _

/-- Inside more groups the same tokens stay inside them. -/
theorem level?_add {opn cls : Char} {d e : Nat} {ts : List Token}
    (h : level? opn cls d ts = some e) (k : Nat) : level? opn cls (d + k) ts = some (e + k) := by
  induction ts generalizing d with
  | nil =>
    rw [level?, Option.some.injEq] at h
    rw [level?, h]
  | cons t ts ih =>
    rw [level?] at h
    rw [level?]
    split at h
    · rw [if_pos ‹_›, Nat.add_right_comm]
      exact ih h
    rw [if_neg ‹_›]
    split at h
    · split at h
      · simp at h
      · rename_i hd
        have hk : d + k - 1 = (d - 1) + k := by omega
        rw [if_pos ‹_›, if_neg (by omega), hk]
        exact ih h
    · rw [if_neg ‹_›]
      exact ih h

/-- A group with more tokens inside, in front. -/
def Group.prepend (ts : List Token) (g : Group) : Group :=
  { g with inside := ts ++ g.inside }

/-- Looking for the closing bracket passes over balanced tokens. -/
theorem closeGroup?_of_level? {opn cls : Char} {d e : Nat} {ts : List Token}
    (h : level? opn cls d ts = some e) (us : List Token) :
    closeGroup? opn cls d (ts ++ us) = (closeGroup? opn cls e us).map (Group.prepend ts) := by
  induction ts generalizing d with
  | nil =>
    rw [level?, Option.some.injEq] at h
    subst h
    exact (Option.map_id_apply ..).symm
  | cons t ts ih =>
    rw [level?] at h
    rw [List.cons_append, closeGroup?]
    split at h
    · rw [if_pos ‹_›, ih h, Option.map_map]
      rfl
    rw [if_neg ‹_›]
    split at h
    · split at h
      · simp at h
      · rw [if_pos ‹_›, if_neg ‹_›, ih h, Option.map_map]
        rfl
    · rw [if_neg ‹_›, ih h, Option.map_map]
      rfl

/-- Balanced tokens and a closing bracket make a group. -/
theorem closeGroup?_of_balanced {opn cls : Char} {ts : List Token} {c : Token}
    (h : Balanced opn cls ts) (hne : cls ≠ opn) (hc : c.isPunct cls = true) (us : List Token) :
    closeGroup? opn cls 0 (ts ++ c :: us) = some ⟨ts, c, us⟩ := by
  rw [closeGroup?_of_level? h, closeGroup?, Token.isPunct_of_ne hc hne]
  simp [hc, Group.prepend]

end PawnApi.Source

namespace PawnApi.Declaration

open PawnApi.Source

/-! ## Where a reader may start -/

theorem keyword_of_ofKeyword? {w : String} {kind : FunctionKind}
    (h : FunctionKind.ofKeyword? w = some kind) : w = kind.keyword := by
  unfold FunctionKind.ofKeyword? at h
  split at h <;> simp only [Option.some.injEq, reduceCtorEq] at h <;> subst h <;> rfl

theorem text_of_isWord {t : Token} {w : String} (h : t.isWord w = true) : t.text = w.toList := by
  simp only [Token.isWord, Bool.and_eq_true, decide_eq_true_eq] at h
  exact h.2

theorem isWord_of_kind? {t : Token} {kind : FunctionKind} (h : kind? t = some kind) :
    t.isWord kind.keyword = true := by
  simp only [kind?, Token.ident?, Option.bind_eq_some_iff] at h
  obtain ⟨w, hw, hk⟩ := h
  split at hw
  · rename_i hi
    rw [← keyword_of_ofKeyword? hk, ← Option.some.inj hw]
    simp [Token.isWord, hi, String.toList_ofList]
  · simp at hw

theorem kind?_of_isWord {t : Token} {w : String} (h : t.isWord w = true) :
    kind? t = FunctionKind.ofKeyword? w := by
  have ht := text_of_isWord h
  simp only [Token.isWord, Bool.and_eq_true, decide_eq_true_eq] at h
  rw [kind?, Token.ident?, if_pos h.1, ht, String.ofList_toList, Option.bind_some]

theorem kind?_eq_some_iff {t : Token} {kind : FunctionKind} :
    kind? t = some kind ↔ t.isWord kind.keyword = true := by
  refine ⟨isWord_of_kind?, fun h => ?_⟩
  rw [kind?_of_isWord h, FunctionKind.ofKeyword?_keyword]

theorem kind?_of_isPunct {t : Token} {c : Char} (h : t.isPunct c = true) : kind? t = none := by
  rw [kind?, Token.ident?_of_isPunct h]
  rfl

theorem guard_of_eq_true {b : Bool} (h : b = true) : (guard (b = true) : Option Unit) = some () :=
  if_pos h

theorem guard_of_eq_false {b : Bool} (h : b = false) : (guard (b = true) : Option Unit) = none :=
  if_neg (by simp [h])

/-! Only its own keyword starts a declaration of each shape. -/

theorem functionAt?_of_kind?_eq_none {t : Token} (h : kind? t = none) (tags : Doc.Tags)
    (us : List Token) : functionAt? tags (t :: us) = none := by
  rw [functionAt?, function?, h]
  rfl

theorem methodmapAt?_of_isWord_eq_false {t : Token} (h : t.isWord "methodmap" = false)
    (us : List Token) : methodmapAt? (t :: us) = none := by
  rw [methodmapAt?, guard_of_eq_false h]
  rfl

theorem typedefAt?_of_isWord_eq_false {t : Token} (h : t.isWord "typedef" = false)
    (tags : Doc.Tags) (us : List Token) : typedefAt? tags (t :: us) = none := by
  rw [typedefAt?, guard_of_eq_false h]
  rfl

/-- A declaration may start at the tails of the token list that start outside all braces
    with a token that opens its line. -/
theorem mem_statementsFrom_iff {d : Nat} {all ts : List Token} :
    ts ∈ statementsFrom d all ↔ ∃ lead, all = lead ++ ts ∧ lead.foldl depthAfter d = 0 ∧
      ∃ t ∈ ts.head?, t.opensLine = true := by
  induction all generalizing d with
  | nil =>
    refine iff_of_false (by simp [statementsFrom]) ?_
    rintro ⟨lead, h, -, t, ht, -⟩
    obtain ⟨-, rfl⟩ := List.append_eq_nil_iff.1 h.symm
    simp at ht
  | cons t all ih =>
    have hhere : ts ∈ (if d = 0 ∧ t.opensLine = true then [t :: all] else []) ↔
        ts = t :: all ∧ d = 0 ∧ t.opensLine = true := by
      split <;> simp [*]
    have hsplit : statementsFrom d (t :: all)
        = (if d = 0 ∧ t.opensLine = true then [t :: all] else [])
          ++ statementsFrom (depthAfter d t) all := by
      rw [statementsFrom]
      split <;> rfl
    rw [hsplit, List.mem_append, hhere, ih]
    constructor
    · rintro (⟨rfl, hd, ho⟩ | ⟨lead, rfl, hd, ho⟩)
      · exact ⟨[], rfl, hd, t, rfl, ho⟩
      · exact ⟨t :: lead, rfl, hd, ho⟩
    · rintro ⟨lead, h, hd, u, hu, ho⟩
      rcases List.cons_eq_append_iff.1 h with ⟨rfl, rfl⟩ | ⟨lead', rfl, rfl⟩
      · obtain rfl : t = u := Option.some.inj hu
        exact Or.inl ⟨rfl, hd, ho⟩
      · exact Or.inr ⟨lead', rfl, hd, u, hu, ho⟩

theorem exists_append_of_mem_statementsFrom {d : Nat} {all ts : List Token}
    (h : ts ∈ statementsFrom d all) :
    ∃ lead, all = lead ++ ts ∧ lead.foldl depthAfter d = 0 := by
  obtain ⟨lead, happ, hd, -⟩ := mem_statementsFrom_iff.1 h
  exact ⟨lead, happ, hd⟩

/-! ## What a reader leaves

    The rest that a reader returns is the end of what it was given. -/

theorem suffix_of_dimensions? {ts rest : List Token} {gs : List Group}
    (h : dimensions? ts = some (gs, rest)) : rest <:+ ts := by
  fun_induction dimensions? ts generalizing gs rest with
  | case1 =>
    simp only [Option.some.injEq, Prod.mk.injEq] at h
    obtain ⟨-, rfl⟩ := h
    exact List.suffix_refl _
  | case2 => simp at h
  | case3 t ts _ g hg ih =>
    obtain ⟨⟨gs', rest'⟩, hg', hp⟩ := Option.map_eq_some_iff.1 h
    simp only [Prod.mk.injEq] at hp
    obtain ⟨rfl, rfl⟩ := hp
    refine (ih hg').trans ⟨t :: (g.inside ++ [g.closer]), ?_⟩
    simp [append_of_closeGroup? hg]
  | case4 =>
    simp only [Option.some.injEq, Prod.mk.injEq] at h
    obtain ⟨-, rfl⟩ := h
    exact List.suffix_refl _

theorem suffix_of_typeName? {ts rest : List Token} {type : String}
    (h : typeName? ts = some (type, rest)) : rest <:+ ts := by
  cases ts with
  | nil => simp [typeName?] at h
  | cons t ts =>
    simp only [typeName?, Option.bind_eq_bind, Option.bind_eq_some_iff, Option.pure_def,
      Option.some.injEq, Prod.mk.injEq] at h
    obtain ⟨_, _, ⟨dims, rest'⟩, hd, _, rfl⟩ := h
    exact (suffix_of_dimensions? hd).trans (List.suffix_cons t ts)

theorem suffix_of_ident? {ts rest : List Token} {name : String}
    (h : ident? ts = some (name, rest)) : rest <:+ ts := by
  cases ts with
  | nil => simp [ident?] at h
  | cons t ts =>
    simp only [ident?, Option.map_eq_some_iff, Prod.mk.injEq] at h
    obtain ⟨_, _, _, rfl⟩ := h
    exact List.suffix_cons t ts

theorem suffix_skipKeywords (kind : FunctionKind) (ts : List Token) :
    (skipKeywords kind ts).2 <:+ ts := by
  induction ts generalizing kind with
  | nil => exact List.suffix_refl _
  | cons t ts ih =>
    rw [skipKeywords]
    split
    · exact (ih _).trans (List.suffix_cons t ts)
    split
    · exact (ih _).trans (List.suffix_cons t ts)
    · exact List.suffix_refl _

theorem suffix_skipMarker (ts : List Token) : skipMarker ts <:+ ts := by
  unfold skipMarker
  split
  · split
    · exact ⟨[_, _], rfl⟩
    · exact List.suffix_refl _
  · exact List.suffix_refl _

theorem suffix_of_resultAndName? {constructors : Bool} {ts rest : List Token}
    {type name : String} (h : resultAndName? constructors ts = some (type, name, rest)) :
    rest <:+ ts := by
  unfold resultAndName? at h
  split at h
  · simp only [Option.bind_eq_bind, Option.bind_eq_some_iff, Option.pure_def,
      Option.some.injEq, Prod.mk.injEq] at h
    obtain ⟨⟨n, r⟩, hi, _, _, rfl⟩ := h
    exact suffix_of_ident? hi
  · simp only [Option.bind_eq_bind, Option.bind_eq_some_iff, Option.pure_def,
      Option.some.injEq, Prod.mk.injEq] at h
    obtain ⟨⟨ty, r⟩, ht, ⟨n, r'⟩, hi, _, _, rfl⟩ := h
    exact (suffix_of_ident? hi).trans (suffix_of_typeName? ht)

theorem suffix_of_functionTypeFollows? {ts rest : List Token}
    (h : functionTypeFollows? ts = some rest) : rest <:+ ts := by
  unfold functionTypeFollows? at h
  split at h
  · split at h
    · rw [← Option.some.inj h]
      exact ⟨[_, _], rfl⟩
    · simp at h
  · simp at h

/-! ## The head of a function -/

/-- A function-like declaration through its closing parenthesis, and the tokens after it. -/
structure CallHead where
  kind : FunctionKind
  returnType : String
  name : String
  params : List Token
  rest : List Token

namespace CallHead

/-- A head with more tokens behind it. -/
def frame (us : List Token) (h : CallHead) : CallHead :=
  { h with rest := h.rest ++ us }

/-- The function that a head and its ending make, where the whole is read at `ts`. -/
def function (h : CallHead) (ts unquoted : List Token) : Function :=
  ⟨h.kind, h.returnType, h.name, h.params, quote ts unquoted⟩

end CallHead

/-- The head of a function-like declaration at the front of a token list. -/
def callHead? (constructors : Bool) : List Token → Option CallHead
  | [] => none
  | t :: us => do
    let first ← kind? t
    let (kind, rest) := skipKeywords first us
    let (returnType, name, rest) ← resultAndName? constructors (skipMarker rest)
    let g ← group? '(' ')' rest
    return ⟨kind, returnType, name, g.inside, g.rest⟩

/-- A function is a head and its ending. -/
theorem function?_eq_bind (constructors : Bool) (ts : List Token) :
    function? constructors ts = (callHead? constructors ts).bind fun h =>
      (ending? h.rest).map fun e => (h.function ts e.1, e.2) := by
  cases ts with
  | nil => rfl
  | cons t us =>
    rw [function?, callHead?]
    cases kind? t with
    | none => rfl
    | some first =>
      simp only [Option.bind_eq_bind, Option.bind_some]
      cases resultAndName? constructors (skipMarker (skipKeywords first us).2) with
      | none => rfl
      | some r =>
        simp only [Option.bind_some]
        cases group? '(' ')' r.2.2 with
        | none => rfl
        | some g =>
          simp only [Option.bind_some, Option.pure_def]
          cases ending? g.rest <;> rfl

theorem suffix_of_group? {opn cls : Char} {ts : List Token} {g : Group}
    (h : group? opn cls ts = some g) : g.rest <:+ ts := by
  cases ts with
  | nil => simp [group?] at h
  | cons t ts =>
    rw [group?] at h
    split at h
    · refine ⟨t :: (g.inside ++ [g.closer]), ?_⟩
      simp [append_of_closeGroup? h]
    · simp at h

theorem suffix_dropSemicolon (ts : List Token) : dropSemicolon ts <:+ ts := by
  cases ts with
  | nil => exact List.suffix_refl _
  | cons t ts =>
    rw [dropSemicolon]
    split
    · exact List.suffix_cons t ts
    · exact List.suffix_refl _

theorem suffix_dropStatement (ts : List Token) : dropStatement ts <:+ ts := by
  induction ts with
  | nil => exact List.suffix_refl _
  | cons t ts ih =>
    rw [dropStatement]
    split
    · split
      · rename_i g hg
        have hrest : g.rest <:+ ts := ⟨g.inside ++ [g.closer], by simpa using append_of_closeGroup? hg⟩
        exact (suffix_dropSemicolon g.rest).trans (hrest.trans (List.suffix_cons t ts))
      · exact List.nil_suffix
    split
    · exact List.suffix_cons t ts
    · exact ih.trans (List.suffix_cons t ts)

/-- A head takes its first token and more. -/
theorem suffix_tail_of_callHead? {constructors : Bool} {t : Token} {us : List Token} {h : CallHead}
    (hh : callHead? constructors (t :: us) = some h) : h.rest <:+ us := by
  simp only [callHead?, Option.bind_eq_bind, Option.bind_eq_some_iff, Option.pure_def,
    Option.some.injEq] at hh
  obtain ⟨first, -, r, hr, g, hg, rfl⟩ := hh
  have hskip : skipMarker (skipKeywords first us).2 <:+ us :=
    (suffix_skipMarker _).trans (suffix_skipKeywords first us)
  have hrest : r.2.2 <:+ us := (suffix_of_resultAndName? hr).trans hskip
  exact (suffix_of_group? hg).trans hrest

theorem suffix_of_callHead? {constructors : Bool} {ts : List Token} {h : CallHead}
    (hh : callHead? constructors ts = some h) : h.rest <:+ ts := by
  cases ts with
  | nil => simp [callHead?] at hh
  | cons t us => exact (suffix_tail_of_callHead? hh).trans (List.suffix_cons t us)

/-- What is not quoted holds all that stands behind the declaration. -/
theorem suffixes_of_ending? {ts unquoted after : List Token}
    (h : ending? ts = some (unquoted, after)) : unquoted <:+ ts ∧ after <:+ unquoted := by
  cases ts with
  | nil => simp [ending?] at h
  | cons t ts =>
    rw [ending?] at h
    split at h
    · cases h
      exact ⟨List.suffix_cons t _, List.suffix_refl _⟩
    split at h
    · split at h
      · rename_i g hg
        cases h
        exact ⟨List.suffix_refl _, t :: (g.inside ++ [g.closer]), by simp [append_of_closeGroup? hg]⟩
      · cases h
        exact ⟨List.suffix_refl _, List.nil_suffix⟩
    · cases h

/-- What a declaration quotes is the text of its first tokens. -/
theorem exists_quoted_of_function? {constructors : Bool} {t : Token} {us after : List Token}
    {f : Function} (h : function? constructors (t :: us) = some (f, after)) :
    ∃ quoted more, us = quoted ++ (more ++ after) ∧
      f.written = String.ofList (Text.onOneLine (Token.span (t :: quoted))) := by
  rw [function?_eq_bind] at h
  obtain ⟨head, hhead, h'⟩ := Option.bind_eq_some_iff.1 h
  obtain ⟨⟨unquoted, after⟩, he, heq⟩ := Option.map_eq_some_iff.1 h'
  cases heq
  obtain ⟨hunquoted, more, hmore⟩ := suffixes_of_ending? he
  obtain ⟨quoted, hquoted⟩ := hunquoted.trans (suffix_tail_of_callHead? hhead)
  refine ⟨quoted, more, by rw [hmore, hquoted], ?_⟩
  rw [CallHead.function, quote, ← hquoted, ← List.cons_append, List.length_append,
    Nat.add_sub_cancel, List.take_left]

theorem suffix_of_function? {constructors : Bool} {ts after : List Token} {f : Function}
    (h : function? constructors ts = some (f, after)) : after <:+ ts := by
  cases ts with
  | nil => simp [function?] at h
  | cons t us =>
    obtain ⟨quoted, more, rfl, -⟩ := exists_quoted_of_function? h
    exact ⟨t :: (quoted ++ more), by simp⟩

/-- The tokens that a declaration does not quote, if an opening brace follows them. -/
def unquoted? : List Token → Option (List Token)
  | [] => some []
  | t :: ts => (ending? (t :: ts)).map Prod.fst

/-! ## Readers before an opening brace

    In what follows `o` is an opening brace, and `x` is anything. -/

section Brace

variable {o : Token} (ho : o.isPunct '{' = true) (x : List Token)

include ho

theorem group?_frame {w : List Token} (hw : GroupsClosed '(' ')' w) :
    group? '(' ')' (w ++ o :: x) = (group? '(' ')' w).map (Group.frame (o :: x)) := by
  cases w with
  | nil => simp [group?, Token.isPunct_of_ne ho]
  | cons t w =>
    rw [List.cons_append, group?, group?]
    split
    · obtain ⟨g, hg⟩ := hw.exists_closeGroup? ‹_›
      rw [closeGroup?_append hg, hg, Option.map_some]
    · rfl

theorem dimensions?_frame {w : List Token} (hw : GroupsClosed '[' ']' w) :
    dimensions? (w ++ o :: x)
      = (dimensions? w).map fun p => (p.1.map (Group.frame (o :: x)), p.2 ++ o :: x) := by
  fun_induction dimensions? w with
  | case1 =>
    rw [List.nil_append, dimensions?, if_neg (by simp [Token.isPunct_of_ne ho])]
    rfl
  | case2 t ts ht hg =>
    obtain ⟨g, hg'⟩ := hw.exists_closeGroup? ht
    rw [hg] at hg'
    simp at hg'
  | case3 t ts ht g hg ih =>
    rw [List.cons_append, dimensions?, if_pos ht]
    split
    · rename_i hn
      rw [closeGroup?_append hg] at hn
      simp at hn
    · rename_i g' hg'
      rw [closeGroup?_append hg, Option.some.injEq] at hg'
      subst hg'
      rw [Group.rest_frame, ih (hw.tail.rest_of_closeGroup? hg), Option.map_map, Option.map_map]
      rfl
  | case4 t ts ht =>
    rw [List.cons_append, dimensions?, if_neg ht]
    rfl

theorem typeName?_frame {w : List Token} (hw : GroupsClosed '[' ']' w) :
    typeName? (w ++ o :: x) = (typeName? w).map fun p => (p.1, p.2 ++ o :: x) := by
  cases w with
  | nil => simp [typeName?, Token.ident?_of_isPunct ho]
  | cons t w =>
    rw [List.cons_append, typeName?, typeName?, dimensions?_frame ho x hw.tail]
    cases t.ident? with
    | none => rfl
    | some name =>
      cases dimensions? w with
      | none => rfl
      | some p => simp [List.flatMap_map]

theorem ident?_frame (w : List Token) :
    ident? (w ++ o :: x) = (ident? w).map fun p => (p.1, p.2 ++ o :: x) := by
  cases w with
  | nil => simp [ident?, Token.ident?_of_isPunct ho]
  | cons t w =>
    rw [List.cons_append, ident?, ident?, Option.map_map]
    rfl

theorem skipKeywords_frame (kind : FunctionKind) (w : List Token) :
    skipKeywords kind (w ++ o :: x)
      = ((skipKeywords kind w).1, (skipKeywords kind w).2 ++ o :: x) := by
  induction w generalizing kind with
  | nil =>
    simp [skipKeywords, kind?_of_isPunct ho, Token.isWord_of_isPunct ho]
  | cons t w ih =>
    rw [List.cons_append, skipKeywords, skipKeywords]
    cases kind? t with
    | some k => exact ih k
    | none =>
      show (if t.isWord "static" = true then _ else _) = _
      split
      · exact ih kind
      · rfl

theorem skipMarker_frame (w : List Token) :
    skipMarker (w ++ o :: x) = skipMarker w ++ o :: x := by
  match w with
  | [] =>
    cases x with
    | nil => rfl
    | cons u x => simp [skipMarker, Token.isWord_of_isPunct ho]
  | [t] => simp [skipMarker, Token.isPunct_of_ne ho]
  | t :: u :: w =>
    rw [List.cons_append, List.cons_append, skipMarker, skipMarker]
    split <;> rfl

theorem callFollows_frame {w : List Token} (hw : w ≠ []) :
    callFollows (w ++ o :: x) = callFollows w := by
  match w with
  | [] => exact absurd rfl hw
  | [t] => simp [callFollows, Token.isPunct_of_ne ho]
  | t :: u :: w => rfl

theorem resultAndName?_frame (constructors : Bool) {w : List Token}
    (hw : GroupsClosed '[' ']' w) :
    resultAndName? constructors (w ++ o :: x)
      = (resultAndName? constructors w).map fun p => (p.1, p.2.1, p.2.2 ++ o :: x) := by
  by_cases hn : w = []
  · subst hn
    simp [resultAndName?, ident?, typeName?, Token.ident?_of_isPunct ho]
  rw [resultAndName?, resultAndName?, callFollows_frame ho x hn]
  split
  · rw [ident?_frame ho]
    cases ident? w <;> rfl
  · rw [typeName?_frame ho x hw]
    cases typeName? w with
    | none => rfl
    | some p =>
      show (ident? (p.2 ++ o :: x)).bind _ = Option.map _ ((ident? p.2).bind _)
      rw [ident?_frame ho]
      cases ident? p.2 <;> rfl

theorem callHead?_frame (constructors : Bool) {w : List Token} (hs : GroupsClosed '[' ']' w)
    (hp : GroupsClosed '(' ')' w) :
    callHead? constructors (w ++ o :: x)
      = (callHead? constructors w).map (CallHead.frame (o :: x)) := by
  cases w with
  | nil => simp [callHead?, kind?_of_isPunct ho]
  | cons t w =>
    cases hk : kind? t with
    | none => simp [callHead?, hk]
    | some first =>
      have hskip : skipMarker (skipKeywords first w).2 <:+ w :=
        (suffix_skipMarker _).trans (suffix_skipKeywords first w)
      simp only [List.cons_append, callHead?, hk, Option.bind_eq_bind, Option.bind_some,
        skipKeywords_frame ho, skipMarker_frame ho,
        resultAndName?_frame ho x constructors (hs.tail.of_suffix hskip)]
      cases hr : resultAndName? constructors (skipMarker (skipKeywords first w).2) with
      | none => rfl
      | some r =>
        have hrest : r.2.2 <:+ w := (suffix_of_resultAndName? hr).trans hskip
        simp only [Option.map_some, Option.bind_some,
          group?_frame ho x (hp.tail.of_suffix hrest)]
        cases group? '(' ')' r.2.2 <;> rfl

/-- What a declaration quotes ends before the brace. -/
theorem ending?_frame (w : List Token) :
    (ending? (w ++ o :: x)).map Prod.fst = (unquoted? w).map (· ++ o :: x) := by
  cases w with
  | nil =>
    have hs : o.isPunct ';' = false := Token.isPunct_of_ne ho (by decide)
    cases hg : closeGroup? '{' '}' 0 x <;> simp [ending?, unquoted?, hs, ho, hg]
  | cons t w =>
    rw [List.cons_append, unquoted?, ending?, ending?]
    split
    · rfl
    split
    · cases closeGroup? '{' '}' 0 (w ++ o :: x) <;> cases closeGroup? '{' '}' 0 w <;> rfl
    · rfl

theorem parent?_frame (w : List Token) :
    parent? (w ++ o :: x) = (parent? w).map fun p => (p.1, p.2 ++ o :: x) := by
  cases w with
  | nil => simp [parent?, Token.isPunct_of_ne ho]
  | cons t w =>
    rw [List.cons_append, parent?, parent?]
    split
    · rw [ident?_frame ho, Option.map_map, Option.map_map]
      rfl
    · rfl

theorem functionTypeFollows?_frame (w : List Token) :
    functionTypeFollows? (w ++ o :: x) = (functionTypeFollows? w).map (· ++ o :: x) := by
  match w with
  | [] =>
    cases x with
    | nil => rfl
    | cons u x => simp [functionTypeFollows?, Token.isPunct_of_ne ho]
  | [t] => simp [functionTypeFollows?, Token.isWord_of_isPunct ho]
  | t :: u :: w =>
    rw [List.cons_append, List.cons_append, functionTypeFollows?, functionTypeFollows?]
    split <;> rfl

theorem afterSemicolon?_frame (w : List Token) :
    afterSemicolon? (w ++ o :: x) = (afterSemicolon? w).map (· ++ o :: x) := by
  cases w with
  | nil => simp [afterSemicolon?, Token.isPunct_of_ne ho]
  | cons t w =>
    rw [List.cons_append, afterSemicolon?, afterSemicolon?]
    split <;> rfl

end Brace

/-- Tokens that stand behind both lists are not quoted. -/
theorem quote_append (ts rest us : List Token) : quote (ts ++ us) (rest ++ us) = quote ts rest := by
  have hl : (ts ++ us).length - (rest ++ us).length = ts.length - rest.length := by
    rw [List.length_append, List.length_append]
    omega
  rw [quote, quote, hl, List.take_append_of_le_length (Nat.sub_le _ _)]

end PawnApi.Declaration
