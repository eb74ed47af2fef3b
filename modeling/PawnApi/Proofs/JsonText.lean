/-
  PawnApi.Proofs.JsonText

  JSON texts and the documents that they spell.

  A document is a sequence of lexemes, and a text spells it if it spells each lexeme, with
  any blanks between them (`Spells`). Both renderings spell their document, and differ in
  blanks only (`withoutBlanks_indented`).
-/
import Mathlib.Data.List.Forall2
import PawnApi.Json.Value

namespace PawnApi.Json

/-! ## Documents -/

/-- Induction over documents. -/
theorem induct {P : Json → Prop} (null : P .null) (str : ∀ s, P (.str s))
    (arr : ∀ items, (∀ v ∈ items, P v) → P (.arr items))
    (obj : ∀ fields, (∀ f ∈ fields, P f.2) → P (.obj fields)) : ∀ v, P v
  | .null => null
  | .str s => str s
  | .arr items => arr items fun v _ => induct null str arr obj v
  | .obj fields => obj fields fun f hf =>
    have : sizeOf f.2 < 1 + sizeOf fields := by
      have := List.sizeOf_lt_of_mem hf
      have : sizeOf f = 1 + sizeOf f.1 + sizeOf f.2 := by cases f; rfl
      omega
    induct null str arr obj f.2

theorem compactItems_eq (items : List Json) : compactItems items = items.map compact := by
  induction items with
  | nil => rfl
  | cons v vs ih => rw [compactItems, ih, List.map_cons]

theorem compactFields_eq (fields : List (String × Json)) :
    compactFields fields = fields.map fun f => quote f.1.toList ++ ':' :: compact f.2 := by
  induction fields with
  | nil => rfl
  | cons f fs ih => rw [compactFields, ih, List.map_cons]

theorem indentedItems_eq (depth : Nat) (items : List Json) :
    indentedItems depth items = items.map (indented (depth + 1)) := by
  induction items with
  | nil => rfl
  | cons v vs ih => rw [indentedItems, ih, List.map_cons]

theorem indentedFields_eq (depth : Nat) (fields : List (String × Json)) :
    indentedFields depth fields
      = fields.map fun f => quote f.1.toList ++ ':' :: ' ' :: indented (depth + 1) f.2 := by
  induction fields with
  | nil => rfl
  | cons f fs ih => rw [indentedFields, ih, List.map_cons]

/-! ## Lexemes -/

/-- What a JSON text is made of, but for the blanks. -/
inductive Lexeme where
  | null
  | str (s : String)
  | openArray
  | closeArray
  | openObject
  | closeObject
  | comma
  | colon
  deriving DecidableEq, Repr

/-- The value of a hexadecimal digit. -/
def hexValue? (c : Char) : Option Nat :=
  if '0' ≤ c ∧ c ≤ '9' then some (c.toNat - 0x30)
  else if 'a' ≤ c ∧ c ≤ 'f' then some (c.toNat - 0x57)
  else if 'A' ≤ c ∧ c ≤ 'F' then some (c.toNat - 0x37)
  else none

/-- The character that a backslash and one more character stand for. -/
def unescape? : Char → Option Char
  | '"' => some '"'
  | '\\' => some '\\'
  | '/' => some '/'
  | 'b' => some '\x08'
  | 'f' => some '\x0c'
  | 'n' => some '\n'
  | 'r' => some '\r'
  | 't' => some '\t'
  | _ => none

/-- The ways to write a character inside a string. -/
inductive SpellsChar : Char → List Char → Prop where
  | plain {c : Char} (hc : 0x20 ≤ c.toNat) (hq : c ≠ '"') (hb : c ≠ '\\') : SpellsChar c [c]
  | short {c e : Char} (h : unescape? e = some c) : SpellsChar c ['\\', e]
  | hex {c x₁ x₂ x₃ x₄ : Char} {n₁ n₂ n₃ n₄ : Nat} (h₁ : hexValue? x₁ = some n₁)
      (h₂ : hexValue? x₂ = some n₂) (h₃ : hexValue? x₃ = some n₃) (h₄ : hexValue? x₄ = some n₄)
      (hc : c.toNat = 16 * (16 * (16 * n₁ + n₂) + n₃) + n₄) :
      SpellsChar c ['\\', 'u', x₁, x₂, x₃, x₄]

/-- The ways to write characters inside a string. -/
inductive SpellsChars : List Char → List Char → Prop where
  | nil : SpellsChars [] []
  | cons {c : Char} {cs x s : List Char} (hx : SpellsChar c x) (hs : SpellsChars cs s) :
      SpellsChars (c :: cs) (x ++ s)

namespace Lexeme

/-- The ways to write a lexeme. -/
inductive Spells : Lexeme → List Char → Prop where
  | null : Spells null ['n', 'u', 'l', 'l']
  | str {s : String} {w : List Char} (h : SpellsChars s.toList w) :
      Spells (str s) ('"' :: (w ++ ['"']))
  | openArray : Spells openArray ['[']
  | closeArray : Spells closeArray [']']
  | openObject : Spells openObject ['{']
  | closeObject : Spells closeObject ['}']
  | comma : Spells comma [',']
  | colon : Spells colon [':']

/-- A lexeme as it is rendered. -/
def text : Lexeme → List Char
  | null => ['n', 'u', 'l', 'l']
  | str s => quote s.toList
  | openArray => ['[']
  | closeArray => [']']
  | openObject => ['{']
  | closeObject => ['}']
  | comma => [',']
  | colon => [':']

end Lexeme

theorem hexValue?_hexDigit {n : Nat} (h : n < 16) : hexValue? (hexDigit n) = some n := by
  have hall : ∀ m : Fin 16, hexValue? (hexDigit m) = some m.val := by decide
  exact hall ⟨n, h⟩

theorem spellsChar_escape (c : Char) : SpellsChar c (escape c) := by
  have hshort : ∀ {e d : Char}, unescape? e = some d → c = d → SpellsChar c ['\\', e] := by
    rintro e _ h rfl
    exact .short h
  unfold escape
  split
  · exact hshort rfl ‹_›
  split
  · exact hshort rfl ‹_›
  split
  · exact hshort rfl ‹_›
  split
  · exact hshort rfl ‹_›
  split
  · exact hshort rfl ‹_›
  split
  · exact hshort rfl ‹_›
  split
  · exact hshort rfl ‹_›
  split
  · -- a control character without a short form
    have hzero : hexValue? '0' = some 0 := by decide
    have hhigh := hexValue?_hexDigit (show c.toNat / 16 < 16 by omega)
    have hlow := hexValue?_hexDigit (show c.toNat % 16 < 16 by omega)
    exact .hex hzero hzero hhigh hlow (by omega)
  · exact .plain (by omega) ‹_› ‹_›

theorem spellsChars_flatMap (cs : List Char) : SpellsChars cs (cs.flatMap escape) := by
  induction cs with
  | nil => exact .nil
  | cons c cs ih =>
    rw [List.flatMap_cons]
    exact .cons (spellsChar_escape c) ih

theorem Lexeme.spells_text (t : Lexeme) : t.Spells t.text := by
  cases t with
  | str s => exact .str (spellsChars_flatMap s.toList)
  | _ => constructor

/-! ## Texts -/

/-- The blanks of a JSON text. -/
def isBlank (c : Char) : Bool :=
  c = ' ' || c = '\t' || c = '\n' || c = '\r'

/-- Words in a row, with any blanks before, between and after them. -/
inductive Spaced : List (List Char) → List Char → Prop where
  | nil {b : List Char} (hb : ∀ c ∈ b, isBlank c = true) : Spaced [] b
  | cons {b w s : List Char} {ws : List (List Char)} (hb : ∀ c ∈ b, isBlank c = true)
      (hs : Spaced ws s) : Spaced (w :: ws) (b ++ (w ++ s))

namespace Spaced

theorem blanks {b s : List Char} {ws : List (List Char)} (hb : ∀ c ∈ b, isBlank c = true)
    (h : Spaced ws s) : Spaced ws (b ++ s) := by
  have hboth : ∀ {b' : List Char}, (∀ c ∈ b', isBlank c = true) →
      ∀ c ∈ b ++ b', isBlank c = true := by
    intro b' hb' c hc
    rcases List.mem_append.1 hc with hc | hc
    · exact hb c hc
    · exact hb' c hc
  cases h with
  | nil hb' => exact .nil (hboth hb')
  | cons hb' hs =>
    rw [← List.append_assoc]
    exact .cons (hboth hb') hs

theorem append {s s' : List Char} {ws ws' : List (List Char)} (h : Spaced ws s)
    (h' : Spaced ws' s') : Spaced (ws ++ ws') (s ++ s') := by
  induction h with
  | nil hb => exact h'.blanks hb
  | cons hb _ ih =>
    rw [List.append_assoc, List.append_assoc]
    exact .cons hb ih

theorem empty : Spaced [] [] :=
  .nil (by simp)

theorem word (w : List Char) {s : List Char} {ws : List (List Char)} (h : Spaced ws s) :
    Spaced (w :: ws) (w ++ s) :=
  .cons (b := []) (by simp) h

end Spaced

mutual

/-- The lexemes of a document. -/
def lexemes : Json → List Lexeme
  | null => [.null]
  | str s => [.str s]
  | arr items => .openArray :: List.intercalate [.comma] (itemLexemes items) ++ [.closeArray]
  | obj fields =>
    .openObject :: List.intercalate [.comma] (fieldLexemes fields) ++ [.closeObject]

def itemLexemes : List Json → List (List Lexeme)
  | [] => []
  | v :: vs => lexemes v :: itemLexemes vs

def fieldLexemes : List (String × Json) → List (List Lexeme)
  | [] => []
  | f :: fs => (.str f.1 :: .colon :: lexemes f.2) :: fieldLexemes fs

end

theorem itemLexemes_eq (items : List Json) : itemLexemes items = items.map lexemes := by
  induction items with
  | nil => rfl
  | cons v vs ih => rw [itemLexemes, ih, List.map_cons]

theorem fieldLexemes_eq (fields : List (String × Json)) :
    fieldLexemes fields = fields.map fun f => .str f.1 :: .colon :: lexemes f.2 := by
  induction fields with
  | nil => rfl
  | cons f fs ih => rw [fieldLexemes, ih, List.map_cons]

/-- Whether a text spells a document. -/
def Spells (v : Json) (s : List Char) : Prop :=
  ∃ ws, List.Forall₂ Lexeme.Spells v.lexemes ws ∧ Spaced ws s

/-! ## Both renderings spell the document -/

theorem forall₂_text (ts : List Lexeme) : List.Forall₂ Lexeme.Spells ts (ts.map Lexeme.text) := by
  rw [List.forall₂_map_right_iff, List.forall₂_same]
  exact fun t _ => t.spells_text

theorem flatMap_intercalate {α β : Type} (f : α → List β) (sep : List α) (xs : List (List α)) :
    (sep.intercalate xs).flatMap f = (sep.flatMap f).intercalate (xs.map (List.flatMap f)) := by
  induction xs with
  | nil => rfl
  | cons x xs ih =>
    cases xs with
    | nil => simp
    | cons y ys =>
      rw [List.intercalate_cons_cons, List.map_cons, List.map_cons, List.intercalate_cons_cons,
        List.flatMap_append, List.flatMap_append, ih, List.map_cons]

/-- The compact rendering is the lexemes and nothing else. -/
theorem compact_eq (v : Json) : compact v = v.lexemes.flatMap Lexeme.text := by
  induction v using induct with
  | null => rfl
  | str s => simp [compact, lexemes, Lexeme.text]
  | arr items ih =>
    have hitems : items.map compact = (items.map lexemes).map (List.flatMap Lexeme.text) := by
      rw [List.map_map]
      exact List.map_congr_left ih
    rw [compact, lexemes, compactItems_eq, itemLexemes_eq, hitems, List.flatMap_append,
      List.flatMap_cons, flatMap_intercalate]
    rfl
  | obj fields ih =>
    have hfields : fields.map (fun f => quote f.1.toList ++ ':' :: compact f.2)
        = (fields.map fun f => .str f.1 :: .colon :: lexemes f.2).map
          (List.flatMap Lexeme.text) := by
      rw [List.map_map]
      refine List.map_congr_left fun f hf => ?_
      rw [ih f hf]
      rfl
    rw [compact, lexemes, compactFields_eq, fieldLexemes_eq, hfields, List.flatMap_append,
      List.flatMap_cons, flatMap_intercalate]
    rfl

theorem spaced_flatMap (ts : List Lexeme) :
    Spaced (ts.map Lexeme.text) (ts.flatMap Lexeme.text) := by
  induction ts with
  | nil => exact .empty
  | cons t ts ih =>
    rw [List.map_cons, List.flatMap_cons]
    exact ih.word t.text

theorem isBlank_of_mem_newline {depth : Nat} : ∀ c ∈ newline depth, isBlank c = true := by
  intro c hc
  rcases List.mem_cons.1 hc with rfl | hc
  · rfl
  · obtain rfl := List.eq_of_mem_replicate hc
    rfl

/-- Spaced parts with a comma and blanks between them. -/
theorem spaced_intercalate {α : Type} {f : α → List Lexeme} {g : α → List Char} {b : List Char}
    (hb : ∀ c ∈ b, isBlank c = true) {xs : List α}
    (h : ∀ x ∈ xs, Spaced ((f x).map Lexeme.text) (g x)) :
    Spaced ((List.intercalate [.comma] (xs.map f)).map Lexeme.text)
      (List.intercalate (',' :: b) (xs.map g)) := by
  induction xs with
  | nil => exact .empty
  | cons x xs ih =>
    have hx := h x (by simp)
    have hxs := ih fun y hy => h y (by simp [hy])
    cases xs with
    | nil => simpa using hx
    | cons y ys =>
      simp only [List.map_cons, List.intercalate_cons_cons, List.map_append] at hxs ⊢
      have hsep : Spaced [[',']] (',' :: b) := Spaced.word [','] (.nil hb)
      exact (hx.append hsep).append hxs

/-- Parts on lines of their own, between brackets. -/
theorem spaced_block {α : Type} {f : α → List Lexeme} {g : α → List Char} {opn cls : Lexeme}
    {o c : Char} (ho : opn.text = [o]) (hc : cls.text = [c]) (depth : Nat) {xs : List α}
    (h : ∀ x ∈ xs, Spaced ((f x).map Lexeme.text) (g x)) :
    Spaced ((opn :: List.intercalate [.comma] (xs.map f) ++ [cls]).map Lexeme.text)
      (block o c depth (xs.map g)) := by
  have hclose : Spaced [[c]] [c] := Spaced.word [c] .empty
  rw [List.map_append, List.map_cons, List.map_singleton, ho, hc, block]
  split
  · rename_i hempty
    obtain rfl : xs = [] := by simpa using hempty
    exact Spaced.word [o] hclose
  · have hline : ∀ d, ∀ c ∈ newline d, isBlank c = true := fun d => isBlank_of_mem_newline
    have hparts := spaced_intercalate (hline (depth + 1)) h
    have hopen : Spaced [[o]] (o :: newline (depth + 1)) := Spaced.word [o] (.nil (hline _))
    have hall := ((hopen.append hparts).append (.nil (hline depth))).append hclose
    simpa using hall

/-- The indented rendering is the lexemes with blanks between them. -/
theorem spaced_indented (v : Json) (depth : Nat) :
    Spaced (v.lexemes.map Lexeme.text) (indented depth v) := by
  induction v using induct generalizing depth with
  | null => exact Spaced.word _ .empty
  | str s =>
    rw [indented, ← List.append_nil (quote s.toList)]
    exact Spaced.word _ .empty
  | arr items ih =>
    rw [indented, lexemes, indentedItems_eq, itemLexemes_eq]
    exact spaced_block rfl rfl depth fun v hv => ih v hv (depth + 1)
  | obj fields ih =>
    rw [indented, lexemes, indentedFields_eq, fieldLexemes_eq]
    refine spaced_block rfl rfl depth fun f hf => ?_
    have hspace : ∀ c ∈ [' '], isBlank c = true := by
      intro c hc
      obtain rfl := List.mem_singleton.1 hc
      rfl
    have hcolon : Spaced ([':'] :: f.2.lexemes.map Lexeme.text)
        (':' :: ' ' :: indented (depth + 1) f.2) :=
      Spaced.word [':'] ((ih f hf (depth + 1)).blanks hspace)
    exact Spaced.word (quote f.1.toList) hcolon

theorem spells_compact (v : Json) : v.Spells (compact v) := by
  rw [compact_eq]
  exact ⟨_, forall₂_text _, spaced_flatMap _⟩

theorem spells_indented (v : Json) (depth : Nat) : v.Spells (indented depth v) :=
  ⟨_, forall₂_text _, spaced_indented v depth⟩

/-! ## Blanks outside strings -/

/-- Where a character of a JSON text stands. -/
inductive Place where
  | outside
  /-- In a string. -/
  | inside
  /-- In a string, behind a backslash. -/
  | escaped
  deriving DecidableEq, Repr

def Place.next : Place → Char → Place
  | outside, c => if c = '"' then inside else outside
  | inside, c => if c = '"' then outside else if c = '\\' then escaped else inside
  | escaped, _ => inside

/-- A text without the blanks that stand outside strings. -/
def withoutBlanks (p : Place) : List Char → List Char
  | [] => []
  | c :: s =>
    if p = .outside ∧ isBlank c = true then withoutBlanks p s
    else c :: withoutBlanks (p.next c) s

theorem withoutBlanks_blanks {b : List Char} (hb : ∀ c ∈ b, isBlank c = true) (s : List Char) :
    withoutBlanks .outside (b ++ s) = withoutBlanks .outside s := by
  induction b with
  | nil => rfl
  | cons c b ih =>
    rw [List.cons_append, withoutBlanks, if_pos ⟨rfl, hb c (by simp)⟩]
    exact ih fun e he => hb e (by simp [he])

theorem ne_of_hexValue? {c : Char} {n : Nat} (h : hexValue? c = some n) : c ≠ '"' ∧ c ≠ '\\' := by
  constructor
  · rintro rfl
    simp [hexValue?] at h
  · rintro rfl
    simp [hexValue?] at h

theorem withoutBlanks_inside {c : Char} (hq : c ≠ '"') (hb : c ≠ '\\') (s : List Char) :
    withoutBlanks .inside (c :: s) = c :: withoutBlanks .inside s := by
  simp [withoutBlanks, Place.next, hq, hb]

theorem SpellsChar.withoutBlanks {c : Char} {x : List Char} (h : SpellsChar c x) (s : List Char) :
    withoutBlanks .inside (x ++ s) = x ++ Json.withoutBlanks .inside s := by
  cases h with
  | plain hc hq hb => exact withoutBlanks_inside hq hb s
  | short he => simp [Json.withoutBlanks, Place.next]
  | hex h₁ h₂ h₃ h₄ hc =>
    obtain ⟨hq₁, hb₁⟩ := ne_of_hexValue? h₁
    obtain ⟨hq₂, hb₂⟩ := ne_of_hexValue? h₂
    obtain ⟨hq₃, hb₃⟩ := ne_of_hexValue? h₃
    obtain ⟨hq₄, hb₄⟩ := ne_of_hexValue? h₄
    simp [Json.withoutBlanks, Place.next, *]

theorem SpellsChars.withoutBlanks {cs w : List Char} (h : SpellsChars cs w) (s : List Char) :
    withoutBlanks .inside (w ++ s) = w ++ Json.withoutBlanks .inside s := by
  induction h with
  | nil => rfl
  | cons hx _ ih => rw [List.append_assoc, hx.withoutBlanks, ih, List.append_assoc]

theorem Lexeme.Spells.withoutBlanks {t : Lexeme} {w : List Char} (h : t.Spells w) (s : List Char) :
    withoutBlanks .outside (w ++ s) = w ++ Json.withoutBlanks .outside s := by
  cases h with
  | str hw =>
    have hopen : ∀ r, Json.withoutBlanks .outside ('"' :: r)
        = '"' :: Json.withoutBlanks .inside r := fun r => rfl
    have hclose : ∀ r, Json.withoutBlanks .inside ('"' :: r)
        = '"' :: Json.withoutBlanks .outside r := fun r => rfl
    rw [List.cons_append, List.append_assoc, hopen, hw.withoutBlanks, List.singleton_append,
      hclose]
    simp
  | _ => rfl

/-- Words that are lexemes are all that is left of a text without blanks. -/
theorem withoutBlanks_of_spaced {ts : List Lexeme} {ws : List (List Char)} {s : List Char}
    (hw : List.Forall₂ Lexeme.Spells ts ws) (hs : Spaced ws s) :
    withoutBlanks .outside s = ws.flatten := by
  induction hs generalizing ts with
  | nil hb => simpa [withoutBlanks] using withoutBlanks_blanks hb []
  | cons hb _ ih =>
    cases hw with
    | cons ht hts => rw [withoutBlanks_blanks hb, ht.withoutBlanks, ih hts, List.flatten_cons]

/-- Without its blanks, the indented rendering is the compact one. -/
theorem withoutBlanks_indented (v : Json) (depth : Nat) :
    withoutBlanks .outside (indented depth v) = compact v := by
  rw [withoutBlanks_of_spaced (forall₂_text _) (spaced_indented v depth), compact_eq,
    List.flatMap_def]

theorem SpellsChar.newline_not_mem {c : Char} {x : List Char} (h : SpellsChar c x) : '\n' ∉ x := by
  have hdigit : hexValue? '\n' = none := by decide
  cases h with
  | plain hc =>
    rw [List.mem_singleton]
    rintro rfl
    exact absurd hc (by decide)
  | short he =>
    simp only [List.mem_cons, List.not_mem_nil, or_false, not_or]
    refine ⟨by decide, ?_⟩
    rintro rfl
    exact absurd he (by simp [unescape?])
  | hex h₁ h₂ h₃ h₄ =>
    simp only [List.mem_cons, List.not_mem_nil, or_false, not_or]
    refine ⟨by decide, by decide, ?_, ?_, ?_, ?_⟩ <;> rintro rfl <;> simp_all

theorem SpellsChars.newline_not_mem {cs w : List Char} (h : SpellsChars cs w) : '\n' ∉ w := by
  induction h with
  | nil => simp
  | cons hx _ ih => simp [hx.newline_not_mem, ih]

theorem Lexeme.Spells.newline_not_mem {t : Lexeme} {w : List Char} (h : t.Spells w) :
    '\n' ∉ w := by
  cases h with
  | str hw => simp [hw.newline_not_mem]
  | _ => decide

/-- The compact rendering is on one line. -/
theorem newline_not_mem_compact (v : Json) : '\n' ∉ compact v := by
  rw [compact_eq]
  intro h
  obtain ⟨t, -, ht⟩ := List.mem_flatMap.1 h
  exact t.spells_text.newline_not_mem ht

end PawnApi.Json
