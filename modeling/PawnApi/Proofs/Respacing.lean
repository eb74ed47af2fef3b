/-
  PawnApi.Proofs.Respacing

  Comments and spacing do not change what is recognised.

  Two codes whose tokens agree in kind, text and line, and of which the same ones touch, may
  hold any blanks and comments in their gaps. They declare the same, up to the texts that are
  copied from the gaps with the tokens: types, defaults and the declaration as written
  (`classify_respaced`).
-/
import PawnApi.Proofs.Bodies
import PawnApi.Proofs.Recasting

namespace PawnApi.Source

/-- Whether two token lists differ in nothing else than the gaps between the tokens. Where
    one has no gap the other has none; the gap before the first token does not count. -/
structure Respaced (ts us : List Token) : Prop where
  tokens_eq : ts.map (fun t => (t.kind, t.text, t.opensLine))
    = us.map fun t => (t.kind, t.text, t.opensLine)
  touch_eq : ts.tail.map (·.gap.isEmpty) = us.tail.map (·.gap.isEmpty)

/-- The token behind a single blank, if there is any gap before it. -/
def Token.squeeze (t : Token) : Token :=
  { t with gap := if t.gap.isEmpty then [] else [' '] }

/-- The token with no gap before it. -/
def Token.flush (t : Token) : Token :=
  { t with gap := [] }

theorem keepsForm_squeeze : KeepsForm Token.squeeze where
  kind_eq _ := rfl
  text_eq _ _ _ := rfl
  gap_eq t := by
    rw [Token.squeeze]
    cases t.gap <;> rfl

theorem squeeze_eq {t u : Token}
    (htoken : (t.kind, t.text, t.opensLine) = (u.kind, u.text, u.opensLine))
    (hgap : t.gap.isEmpty = u.gap.isEmpty) : t.squeeze = u.squeeze := by
  obtain ⟨hkind, htext, hline⟩ : t.kind = u.kind ∧ t.text = u.text ∧ t.opensLine = u.opensLine := by
    simpa only [Prod.mk.injEq] using htoken
  rw [Token.squeeze, Token.squeeze, hkind, htext, hline, hgap]

theorem map_squeeze_eq {ts us : List Token}
    (htokens : ts.map (fun t => (t.kind, t.text, t.opensLine))
      = us.map fun t => (t.kind, t.text, t.opensLine))
    (htouch : ts.map (·.gap.isEmpty) = us.map (·.gap.isEmpty)) :
    ts.map Token.squeeze = us.map Token.squeeze := by
  induction ts generalizing us with
  | nil =>
    obtain rfl : us = [] := List.map_eq_nil_iff.1 htokens.symm
    rfl
  | cons t ts ih =>
    cases us with
    | nil => simp at htokens
    | cons u us =>
      obtain ⟨htoken, htokens⟩ := List.cons.inj htokens
      obtain ⟨hgap, htouch⟩ := List.cons.inj htouch
      rw [List.map_cons, List.map_cons, squeeze_eq htoken hgap, ih htokens htouch]

/-- With one blank for every gap, the two lists are the same. -/
theorem Respaced.map_squeeze_eq {ts us : List Token} (h : Respaced ts us) :
    (ts.modifyHead Token.flush).map Token.squeeze
      = (us.modifyHead Token.flush).map Token.squeeze := by
  obtain ⟨htokens, htouch⟩ := h
  cases ts with
  | nil =>
    obtain rfl : us = [] := List.map_eq_nil_iff.1 htokens.symm
    rfl
  | cons t ts =>
    cases us with
    | nil => simp at htokens
    | cons u us =>
      obtain ⟨htoken, htokens⟩ := List.cons.inj htokens
      have hhead : t.flush.squeeze = u.flush.squeeze := squeeze_eq htoken rfl
      rw [List.modifyHead_cons, List.modifyHead_cons, List.map_cons, List.map_cons, hhead,
        Source.map_squeeze_eq htokens htouch]

end PawnApi.Source

namespace PawnApi

/-- A view of the names in an entry. None of the texts that are copied from a code is
    shown. -/
def View.names : View where
  type _ := ""
  paramType _ := ""
  default _ := none
  written _ := ""

end PawnApi

namespace PawnApi.Declaration

open PawnApi.Source PawnApi.Param

theorem keepsText_flush : KeepsText Token.flush :=
  fun _ => ⟨rfl, rfl⟩

theorem shows_squeeze : Shows .names Token.squeeze where
  toKeepsForm := keepsForm_squeeze
  type_eq _ _ _ := rfl
  paramType_eq _ := rfl
  default_eq _ _ := rfl
  written_eq _ := rfl

/-- What is found through a view is found after a change that neither readers nor the view
    notice, if it leaves the lines alone. -/
theorem find?_map {v : View} {f : Token → Token} (hf : Shows v f)
    (hline : ∀ t, (f t).opensLine = t.opensLine) (tags : Doc.Tags) (ts : List Token) :
    (find? tags (ts.map f)).map (Found.view v) = (find? tags ts).map (Found.view v) := by
  simp only [map_find?, statements, statementsFrom_map hf.toKeepsForm hline, List.findSome?_map,
    Function.comp_def, functionAt?_map hf, methodmapAt?_map hf, typedefAt?_map hf]

theorem find?_respaced (tags : Doc.Tags) {ts us : List Token} (h : Respaced ts us) :
    (find? tags ts).map (Found.view .names) = (find? tags us).map (Found.view .names) := by
  have hsqueeze : ∀ ts : List Token, (find? tags ts).map (Found.view .names)
      = (find? tags ((ts.modifyHead Token.flush).map Token.squeeze)).map (Found.view .names) := by
    intro ts
    rw [find?_map shows_squeeze (fun _ => rfl) tags (ts.modifyHead Token.flush),
      find?_modifyHead keepsText_flush tags (fun _ _ => rfl)]
  rw [hsqueeze ts, hsqueeze us, h.map_squeeze_eq]

/-- An entry is made of the declaration found, so viewing it is viewing that. -/
theorem classify_view (v : View) (code : List Char) (comment : Doc.Comment) (file : String) :
    (classify code comment file).map (Entry.view v)
      = ((find? comment.tags (tokens code)).map (Found.view v)).map fun d =>
        ⟨d.name, d.shape, comment.description, comment.tags, d.written, file⟩ := by
  rw [classify, Option.map_map, Option.map_map]
  rfl

/-- **Comments and spacing.** Two codes that differ in nothing else than their gaps declare
    nothing both, or the same up to types, defaults and the declaration as written: entries of
    the same shape with the same name, kind, parent, parameter names, methods and properties,
    and with the same documentation. -/
theorem classify_respaced {code code' : List Char} (h : Respaced (tokens code) (tokens code'))
    (comment : Doc.Comment) (file : String) :
    (classify code comment file).map (Entry.view .names)
      = (classify code' comment file).map (Entry.view .names) := by
  rw [classify_view, classify_view, find?_respaced comment.tags h]

/-- Comments with brackets and commas in a type, between parameters and in a default. -/
theorem classify_respaced_function :
    (classify "native int [ 2] f(int[ ] a, int b = 1 + 2);".toList ⟨"F.", {}⟩ "f.inc").map
        (Entry.view .names)
      = some ⟨"f", .function .native "" [⟨"a", "", none, ""⟩, ⟨"b", "", none, ""⟩], "F.", {}, "",
        "f.inc"⟩ := by
  have h : Respaced
      (tokens "native int [ 2] f(int[ ] a, int b = 1 + 2);".toList)
      (tokens
        "native/**/int\t[/* ] */2]\tf(int[/* , */] a,/*)*/int b/* > */= 1/**/+\t2);".toList) :=
    ⟨by decide +kernel, by decide +kernel⟩
  rw [classify_respaced h]
  decide +kernel

end PawnApi.Declaration
