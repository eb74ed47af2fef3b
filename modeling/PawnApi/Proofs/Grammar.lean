/-
  PawnApi.Proofs.Grammar

  The classifier recognises the grammar of declarations.

  A declaration may start at any token that opens a line outside all braces. Looking for
  one shape finds the first place where a phrase of that shape starts
  (`findSome?_statements_eq_some_iff`). Functions come before methodmaps and methodmaps
  before typedefs, which makes `classify_recognises`.
-/
import PawnApi.Proofs.Phrases

namespace PawnApi.Declaration

open PawnApi.Source

/-! ## The first phrase of a shape -/

/-- A declaration may start at `ts`, with `lead` in front of it: `ts` starts a line outside
    all braces. -/
def IsStart (all lead ts : List Token) : Prop :=
  all = lead ++ ts ∧ lead.foldl depthAfter 0 = 0 ∧ ∃ t ∈ ts.head?, t.opensLine = true

section Phrases

variable {α : Type} (whole : α → List Token) (all : List Token)

/-- No phrase of a shape starts anywhere. -/
def NoPhrase : Prop :=
  ∀ lead q, ¬ IsStart all lead (whole q)

/-- A phrase that starts somewhere, and no phrase of its shape starts before it. -/
def FirstPhrase (p : α) : Prop :=
  ∃ lead, IsStart all lead (whole p) ∧
    ∀ lead' q, IsStart all lead' (whole q) → lead.length ≤ lead'.length

end Phrases

theorem mem_statements_iff {all ts : List Token} :
    ts ∈ statements all ↔ ∃ lead, IsStart all lead ts :=
  mem_statementsFrom_iff

/-- The places where a declaration may start are listed in order. -/
theorem pairwise_statementsFrom (d : Nat) (ts : List Token) :
    (statementsFrom d ts).Pairwise fun a b => b.length < a.length := by
  induction ts generalizing d with
  | nil => exact .nil
  | cons t ts ih =>
    rw [statementsFrom]
    split
    · refine .cons (fun us hus => ?_) (ih _)
      obtain ⟨lead, rfl, -⟩ := exists_append_of_mem_statementsFrom hus
      simp only [List.length_cons, List.length_append]
      omega
    · exact ih _

/-- Looking for a declaration of one shape finds its first phrase. -/
theorem findSome?_statements_eq_some_iff {α : Type} {whole : α → List Token} {found : α → Found}
    {read : List Token → Option Found}
    (hread : ∀ {ts d}, read ts = some d ↔ ∃ p, ts = whole p ∧ d = found p)
    {all : List Token} {d : Found} :
    (statements all).findSome? read = some d ↔ ∃ p, FirstPhrase whole all p ∧ d = found p := by
  have hpair : (statements all).Pairwise fun a b => b.length < a.length :=
    pairwise_statementsFrom 0 all
  constructor
  · intro h
    obtain ⟨before, ts, behind, hsplit, hts, hnone⟩ := List.findSome?_eq_some_iff.1 h
    obtain ⟨p, rfl, rfl⟩ := hread.1 hts
    obtain ⟨lead, hstart⟩ := mem_statements_iff.1 (show whole p ∈ statements all by simp [hsplit])
    refine ⟨p, ⟨lead, hstart, fun lead' q hq => ?_⟩, rfl⟩
    have hlen := congrArg List.length (hstart.1.symm.trans hq.1)
    simp only [List.length_append] at hlen
    -- a phrase that is listed earlier would have been found
    have hmem : whole q ∈ statements all := mem_statements_iff.2 ⟨lead', hq⟩
    have hle : (whole q).length ≤ (whole p).length := by
      rw [hsplit, List.mem_append, List.mem_cons] at hmem
      rcases hmem with hmem | hmem | hmem
      · have hq' := hnone _ hmem
        rw [hread.2 ⟨q, rfl, rfl⟩] at hq'
        simp at hq'
      · exact Nat.le_of_eq (congrArg List.length hmem)
      · rw [hsplit, List.pairwise_append, List.pairwise_cons] at hpair
        exact Nat.le_of_lt (hpair.2.1.1 _ hmem)
    omega
  · rintro ⟨p, ⟨lead, hstart, hfirst⟩, rfl⟩
    obtain ⟨before, behind, hsplit⟩ :=
      List.append_of_mem (mem_statements_iff.2 ⟨lead, hstart⟩)
    refine List.findSome?_eq_some_iff.2 ⟨before, whole p, behind, hsplit,
      hread.2 ⟨p, rfl, rfl⟩, fun us hus => ?_⟩
    rw [Option.eq_none_iff_forall_ne_some]
    intro d hd
    obtain ⟨q, rfl, rfl⟩ := hread.1 hd
    obtain ⟨lead', hq⟩ := mem_statements_iff.1
      (show whole q ∈ statements all by simp [hsplit, hus])
    have hlen := congrArg List.length (hstart.1.symm.trans hq.1)
    have hle := hfirst lead' q hq
    simp only [List.length_append] at hlen
    rw [hsplit, List.pairwise_append] at hpair
    have hlt := hpair.2.2 _ hus (whole p) (by simp)
    omega

theorem findSome?_statements_eq_none_iff {α : Type} {whole : α → List Token} {found : α → Found}
    {read : List Token → Option Found}
    (hread : ∀ {ts d}, read ts = some d ↔ ∃ p, ts = whole p ∧ d = found p)
    {all : List Token} :
    (statements all).findSome? read = none ↔ NoPhrase whole all := by
  rw [List.findSome?_eq_none_iff]
  constructor
  · intro h lead q hq
    have hn := h _ (mem_statements_iff.2 ⟨lead, hq⟩)
    rw [hread.2 ⟨q, rfl, rfl⟩] at hn
    simp at hn
  · intro h ts hts
    rw [Option.eq_none_iff_forall_ne_some]
    intro d hd
    obtain ⟨q, rfl, -⟩ := hread.1 hd
    obtain ⟨lead, hq⟩ := mem_statements_iff.1 hts
    exact h lead q hq

/-! ## The declaration of a code -/

/-- The declaration that the phrases in a code make. -/
inductive Declares (tags : Doc.Tags) (all : List Token) : Found → Prop where
  | function {p : FunctionPhrase} (hp : FirstPhrase FunctionPhrase.whole all p) :
      Declares tags all (p.found tags)
  | methodmap {p : MethodmapPhrase} (hf : NoPhrase FunctionPhrase.whole all)
      (hp : FirstPhrase MethodmapPhrase.whole all p) : Declares tags all p.found
  | typedef {p : TypedefPhrase} (hf : NoPhrase FunctionPhrase.whole all)
      (hm : NoPhrase MethodmapPhrase.whole all) (hp : FirstPhrase TypedefPhrase.whole all p) :
      Declares tags all (p.found tags)

theorem find?_eq_some_iff {tags : Doc.Tags} {all : List Token} {d : Found} :
    find? tags all = some d ↔ Declares tags all d := by
  rw [find?, Option.or_eq_some_iff, Option.or_eq_some_iff,
    findSome?_statements_eq_some_iff functionAt?_eq_some_iff,
    findSome?_statements_eq_none_iff (@functionAt?_eq_some_iff tags),
    findSome?_statements_eq_some_iff methodmapAt?_eq_some_iff,
    findSome?_statements_eq_none_iff methodmapAt?_eq_some_iff,
    findSome?_statements_eq_some_iff typedefAt?_eq_some_iff]
  constructor
  · rintro (⟨p, hp, rfl⟩ | ⟨hf, ⟨p, hp, rfl⟩ | ⟨hm, p, hp, rfl⟩⟩)
    · exact .function hp
    · exact .methodmap hf hp
    · exact .typedef hf hm hp
  · intro h
    cases h with
    | function hp => exact Or.inl ⟨_, hp, rfl⟩
    | methodmap hf hp => exact Or.inr ⟨hf, Or.inl ⟨_, hp, rfl⟩⟩
    | typedef hf hm hp => exact Or.inr ⟨hf, Or.inr ⟨hm, _, hp, rfl⟩⟩

theorem find?_eq_none_iff {tags : Doc.Tags} {all : List Token} :
    find? tags all = none ↔ NoPhrase FunctionPhrase.whole all ∧
      NoPhrase MethodmapPhrase.whole all ∧ NoPhrase TypedefPhrase.whole all := by
  rw [find?, Option.or_eq_none_iff, Option.or_eq_none_iff,
    findSome?_statements_eq_none_iff (@functionAt?_eq_some_iff tags),
    findSome?_statements_eq_none_iff methodmapAt?_eq_some_iff,
    findSome?_statements_eq_none_iff (@typedefAt?_eq_some_iff tags)]

/-- The entry for a declaration, documented by a comment. -/
def Found.entry (comment : Doc.Comment) (file : String) (d : Found) : Entry where
  name := d.name
  shape := d.shape
  comment := comment.description
  tags := comment.tags
  fullDeclaration := d.written
  sourceFile := file

theorem classify_eq (code : List Char) (comment : Doc.Comment) (file : String) :
    classify code comment file
      = (find? comment.tags (tokens code)).map (Found.entry comment file) := rfl

/-- **The classifier recognises its grammar.** The entry for a code is the one that its
    phrases make: the first function phrase that starts a line outside all braces, if there
    is none the first methodmap phrase, and if there is none either the first typedef
    phrase. There is no entry exactly if there is no phrase. -/
theorem classify_recognises (code : List Char) (comment : Doc.Comment) (file : String) :
    (∀ e, classify code comment file = some e ↔
      ∃ d, Declares comment.tags (tokens code) d ∧ e = d.entry comment file) ∧
    (classify code comment file = none ↔ NoPhrase FunctionPhrase.whole (tokens code) ∧
      NoPhrase MethodmapPhrase.whole (tokens code) ∧
      NoPhrase TypedefPhrase.whole (tokens code)) := by
  rw [classify_eq]
  constructor
  · intro e
    rw [Option.map_eq_some_iff]
    constructor
    · rintro ⟨d, hd, rfl⟩
      exact ⟨d, find?_eq_some_iff.1 hd, rfl⟩
    · rintro ⟨d, hd, rfl⟩
      exact ⟨d, find?_eq_some_iff.2 hd, rfl⟩
  · rw [Option.map_eq_none_iff, find?_eq_none_iff]

/-- Behind the legacy marker a keyword may be a type: in `native New:stock foo();` each
    function phrase has one, no other phrase starts there, and a function is found. -/
theorem classify_marked_keyword :
    (∀ lead (p : FunctionPhrase),
      IsStart (tokens "native New:stock foo();".toList) lead p.whole → IsModifier p.type.word) ∧
    NoPhrase MethodmapPhrase.whole (tokens "native New:stock foo();".toList) ∧
    NoPhrase TypedefPhrase.whole (tokens "native New:stock foo();".toList) ∧
    classify "native New:stock foo();".toList {} ""
      = some ⟨"foo", .function .native "stock" [], "", {}, "native New:stock foo();", ""⟩ := by
  refine ⟨fun lead p h => ?_, ?_, ?_, by decide +kernel⟩
  · have hstarts : statements (tokens "native New:stock foo();".toList)
        = [tokens "native New:stock foo();".toList] := by decide +kernel
    have hwhole := mem_statements_iff.2 ⟨lead, h⟩
    rw [hstarts, List.mem_singleton] at hwhole
    have hread := p.functionAt?_whole {}
    have hfound : functionAt? {} (tokens "native New:stock foo();".toList)
        = some ⟨"foo", .function .native "stock" [], "native New:stock foo();"⟩ := by
      decide +kernel
    rw [hwhole, hfound] at hread
    have hshape := congrArg Found.shape (Option.some.inj hread)
    simp only [FunctionPhrase.found, Shape.function.injEq] at hshape
    have hword := p.type.isWord_of_name_eq hshape.2.1.symm (by decide)
    exact Or.inl ⟨.stock, hword⟩
  · rw [← findSome?_statements_eq_none_iff methodmapAt?_eq_some_iff]
    decide +kernel
  · rw [← findSome?_statements_eq_none_iff (@typedefAt?_eq_some_iff {})]
    decide +kernel

end PawnApi.Declaration
