/-
  PawnApi.Proofs.JsonReader

  Reading JSON texts.

  Reading goes in two passes. The first is a machine that takes one step for each
  character and finds the lexemes, the second one that takes one step for each lexeme and
  keeps a stack of the arrays and objects that are open. Whatever text spells a document,
  reading it gives the document back (`ofText?_of_spells`).
-/
import PawnApi.Proofs.JsonText

namespace PawnApi.Json

/-! ## Finding lexemes -/

/-- Where the first pass stands in a lexeme. -/
inductive Progress where
  | between
  /-- In a word, of which these characters are still to come. -/
  | word (rest : List Char)
  /-- In a string, with the characters so far in reverse. -/
  | inside (acc : List Char)
  /-- Behind a backslash. -/
  | escaped (acc : List Char)
  /-- In a character given by its number, of which `left` digits are still to come. -/
  | hex (acc : List Char) (left value : Nat)
  deriving DecidableEq, Repr

/-- The state of the first pass. -/
structure Lexer where
  /-- The lexemes that were found, in reverse. -/
  found : List Lexeme := []
  progress : Progress := .between
  deriving DecidableEq, Repr

namespace Lexer

/-- Adds a lexeme. -/
def push (l : Lexer) (t : Lexeme) : Lexer :=
  ⟨t :: l.found, .between⟩

/-- The first character of a lexeme. -/
def start (l : Lexer) (c : Char) : Option Lexer :=
  match c with
  | '[' => some (l.push .openArray)
  | ']' => some (l.push .closeArray)
  | '{' => some (l.push .openObject)
  | '}' => some (l.push .closeObject)
  | ',' => some (l.push .comma)
  | ':' => some (l.push .colon)
  | '"' => some { l with progress := .inside [] }
  | 'n' => some { l with progress := .word ['u', 'l', 'l'] }
  | _ => none

/-- The character with a given number. -/
def char? (n : Nat) : Option Char :=
  if n.isValidChar then some (Char.ofNat n) else none

/-- One step of the first pass. -/
def next (l : Lexer) (c : Char) : Option Lexer :=
  match l.progress with
  | .between => if isBlank c then some l else l.start c
  | .word [] => none
  | .word [x] => if c = x then some (l.push .null) else none
  | .word (x :: rest) => if c = x then some { l with progress := .word rest } else none
  | .inside acc =>
    if c = '"' then some (l.push (.str (String.ofList acc.reverse)))
    else if c = '\\' then some { l with progress := .escaped acc }
    else if c.toNat < 0x20 then none
    else some { l with progress := .inside (c :: acc) }
  | .escaped acc =>
    if c = 'u' then some { l with progress := .hex acc 4 0 }
    else (unescape? c).map fun e => { l with progress := .inside (e :: acc) }
  | .hex acc left value => do
    let digit ← hexValue? c
    if left = 1 then
      let e ← char? (16 * value + digit)
      return { l with progress := .inside (e :: acc) }
    else return { l with progress := .hex acc (left - 1) (16 * value + digit) }

/-- The first pass over a text. -/
def run (l : Lexer) (s : List Char) : Option Lexer :=
  s.foldlM next l

@[simp] theorem run_nil (l : Lexer) : l.run [] = some l := rfl

@[simp] theorem run_cons (l : Lexer) (c : Char) (s : List Char) :
    l.run (c :: s) = (l.next c).bind fun m => m.run s := rfl

theorem run_append (l : Lexer) (s r : List Char) :
    l.run (s ++ r) = (l.run s).bind fun m => m.run r :=
  List.foldlM_append

theorem run_blanks {b : List Char} (hb : ∀ c ∈ b, isBlank c = true) (found : List Lexeme) :
    run ⟨found, .between⟩ b = some ⟨found, .between⟩ := by
  induction b with
  | nil => rfl
  | cons c b ih =>
    rw [run_cons, next, if_pos (hb c (by simp)), Option.bind_some]
    exact ih fun e he => hb e (by simp [he])

end Lexer

theorem char?_toNat (c : Char) : Lexer.char? c.toNat = some c := by
  have hvalid : c.toNat.isValidChar := c.valid
  rw [Lexer.char?, if_pos hvalid, Char.ofNat_toNat]

theorem SpellsChar.run {c : Char} {x : List Char} (h : SpellsChar c x) (found : List Lexeme)
    (acc : List Char) :
    Lexer.run ⟨found, .inside acc⟩ x = some ⟨found, .inside (c :: acc)⟩ := by
  cases h with
  | plain hc hq hb =>
    have hcontrol : ¬ c.toNat < 0x20 := by omega
    simp [Lexer.next, hq, hb, hcontrol]
  | @short e he =>
    -- a `u` behind the backslash would start a number
    have hu : e ≠ 'u' := by
      rintro rfl
      simp [unescape?] at he
    simp [Lexer.next, he, hu]
  | hex h₁ h₂ h₃ h₄ hc =>
    have hchar := char?_toNat c
    rw [hc] at hchar
    simp [Lexer.next, h₁, h₂, h₃, h₄, hchar]

theorem SpellsChars.run {cs w : List Char} (h : SpellsChars cs w) (found : List Lexeme)
    (acc : List Char) :
    Lexer.run ⟨found, .inside acc⟩ w = some ⟨found, .inside (cs.reverse ++ acc)⟩ := by
  induction h generalizing acc with
  | nil => rfl
  | cons hx _ ih => rw [Lexer.run_append, hx.run, Option.bind_some, ih]; simp

/-- A lexeme is found at its last character. -/
theorem Lexeme.Spells.run {t : Lexeme} {w : List Char} (h : t.Spells w) (found : List Lexeme) :
    Lexer.run ⟨found, .between⟩ w = some ⟨t :: found, .between⟩ := by
  cases h with
  | @str s w hw =>
    have hopen : Lexer.next ⟨found, .between⟩ '"' = some ⟨found, .inside []⟩ := rfl
    rw [Lexer.run_cons, hopen, Option.bind_some, Lexer.run_append, hw.run, Option.bind_some]
    simp [Lexer.next, Lexer.push]
  | _ => rfl

/-- The lexemes of a text, if it is made of lexemes and blanks. -/
def lexemes? (s : List Char) : Option (List Lexeme) :=
  match Lexer.run {} s with
  | some ⟨found, .between⟩ => some found.reverse
  | _ => none

theorem run_of_spaced {ts : List Lexeme} {ws : List (List Char)} {s : List Char}
    (hw : List.Forall₂ Lexeme.Spells ts ws) (hs : Spaced ws s) (found : List Lexeme) :
    Lexer.run ⟨found, .between⟩ s = some ⟨ts.reverse ++ found, .between⟩ := by
  -- blanks, then a lexeme, which is found before the next blanks are read
  induction hs generalizing ts found with
  | nil hb =>
    cases hw
    exact Lexer.run_blanks hb found
  | cons hb _ ih =>
    cases hw with
    | cons ht hts =>
      rw [Lexer.run_append, Lexer.run_blanks hb, Option.bind_some, Lexer.run_append, ht.run,
        Option.bind_some, ih hts]
      simp

theorem lexemes?_of_spaced {ts : List Lexeme} {ws : List (List Char)} {s : List Char}
    (hw : List.Forall₂ Lexeme.Spells ts ws) (hs : Spaced ws s) : lexemes? s = some ts := by
  have hrun : Lexer.run {} s = some ⟨ts.reverse ++ [], .between⟩ := run_of_spaced hw hs []
  rw [lexemes?, hrun]
  simp

/-! ## Putting documents together -/

/-- An array or object that is open. Its items and fields so far are in reverse. -/
inductive Frame where
  | arr (items : List Json)
  /-- The value of the field `key` is to come. -/
  | obj (fields : List (String × Json)) (key : String)

/-- The state of the second pass. -/
inductive Builder where
  /-- A value is to come; in an array without items its end may come as well. -/
  | value (stack : List Frame)
  | afterItem (items : List Json) (stack : List Frame)
  /-- A key is to come; in an object without fields its end may come as well. -/
  | key (fields : List (String × Json)) (stack : List Frame)
  | afterKey (fields : List (String × Json)) (key : String) (stack : List Frame)
  | afterField (fields : List (String × Json)) (stack : List Frame)
  | done (v : Json)

namespace Builder

/-- A value is complete. -/
def finish : List Frame → Json → Builder
  | [], v => done v
  | .arr items :: stack, v => afterItem (v :: items) stack
  | .obj fields k :: stack, v => afterField ((k, v) :: fields) stack

/-- One step of the second pass. -/
def next : Builder → Lexeme → Option Builder
  | value stack, .null => some (finish stack .null)
  | value stack, .str s => some (finish stack (.str s))
  | value stack, .openArray => some (value (.arr [] :: stack))
  | value stack, .openObject => some (key [] stack)
  | value (.arr [] :: stack), .closeArray => some (finish stack (.arr []))
  | afterItem items stack, .comma => some (value (.arr items :: stack))
  | afterItem items stack, .closeArray => some (finish stack (.arr items.reverse))
  | key fields stack, .str s => some (afterKey fields s stack)
  | key [] stack, .closeObject => some (finish stack (.obj []))
  | afterKey fields s stack, .colon => some (value (.obj fields s :: stack))
  | afterField fields stack, .comma => some (key fields stack)
  | afterField fields stack, .closeObject => some (finish stack (.obj fields.reverse))
  | _, _ => none

/-- The second pass over lexemes. -/
def run (b : Builder) (ts : List Lexeme) : Option Builder :=
  ts.foldlM next b

@[simp] theorem run_nil (b : Builder) : b.run [] = some b := rfl

@[simp] theorem run_cons (b : Builder) (t : Lexeme) (ts : List Lexeme) :
    b.run (t :: ts) = (b.next t).bind fun c => c.run ts := rfl

theorem run_append (b : Builder) (ts us : List Lexeme) :
    b.run (ts ++ us) = (b.run ts).bind fun c => c.run us :=
  List.foldlM_append

/-- The items of an array, each read as a value, and its end. -/
theorem run_items {v : Json} {vs : List Json}
    (h : ∀ u ∈ v :: vs, ∀ stack, run (value stack) u.lexemes = some (finish stack u))
    (acc : List Json) (stack : List Frame) :
    run (value (.arr acc :: stack))
        (List.intercalate [.comma] ((v :: vs).map lexemes) ++ [.closeArray])
      = some (finish stack (.arr (acc.reverse ++ v :: vs))) := by
  -- there is always a next item `v`, since an empty array ends in another way
  induction vs generalizing v acc with
  | nil =>
    rw [List.map_singleton, List.intercalate_singleton, run_append, h v (by simp)]
    simp [finish, next]
  | cons u us ih =>
    have hus := ih (fun w hw => h w (List.mem_cons_of_mem v hw)) (v :: acc)
    have hcomma : next (afterItem (v :: acc) stack) .comma
        = some (value (.arr (v :: acc) :: stack)) := rfl
    rw [List.map_cons] at hus
    rw [List.map_cons, List.map_cons, List.intercalate_cons_cons, List.append_assoc,
      List.append_assoc, run_append, h v (by simp), Option.bind_some, finish,
      List.singleton_append, run_cons, hcomma, Option.bind_some, hus]
    simp

/-- The fields of an object, each a key and a value, and its end. -/
theorem run_fields {f : String × Json} {fs : List (String × Json)}
    (h : ∀ g ∈ f :: fs, ∀ stack, run (value stack) g.2.lexemes = some (finish stack g.2))
    (acc : List (String × Json)) (stack : List Frame) :
    run (key acc stack)
        (List.intercalate [.comma] ((f :: fs).map fun g => .str g.1 :: .colon :: lexemes g.2)
          ++ [.closeObject])
      = some (finish stack (.obj (acc.reverse ++ f :: fs))) := by
  -- a field is read by itself, and the object goes on behind it
  have hfield : ∀ g ∈ f :: fs, ∀ acc, run (key acc stack) (.str g.1 :: .colon :: lexemes g.2)
      = some (afterField (g :: acc) stack) := by
    intro g hg acc
    have hkey : next (key acc stack) (.str g.1) = some (afterKey acc g.1 stack) := by
      cases acc <;> rfl
    have hcolon : next (afterKey acc g.1 stack) .colon = some (value (.obj acc g.1 :: stack)) :=
      rfl
    rw [run_cons, hkey, Option.bind_some, run_cons, hcolon, Option.bind_some, h g hg]
    rfl
  induction fs generalizing f acc with
  | nil =>
    rw [List.map_singleton, List.intercalate_singleton, run_append, hfield f (by simp)]
    simp [next]
  | cons g gs ih =>
    have hgs := ih (fun w hw => h w (List.mem_cons_of_mem f hw)) (f :: acc)
      fun w hw => hfield w (List.mem_cons_of_mem f hw)
    have hcomma : next (afterField (f :: acc) stack) .comma = some (key (f :: acc) stack) := rfl
    rw [List.map_cons] at hgs
    rw [List.map_cons, List.map_cons, List.intercalate_cons_cons, List.append_assoc,
      List.append_assoc, run_append, hfield f (by simp), Option.bind_some,
      List.singleton_append, run_cons, hcomma, Option.bind_some, hgs]
    simp

/-- The lexemes of a document are read as one value. -/
theorem run_lexemes (v : Json) (stack : List Frame) :
    run (value stack) v.lexemes = some (finish stack v) := by
  induction v using induct generalizing stack with
  | null => simp [lexemes, next]
  | str s => simp [lexemes, next]
  | arr items ih =>
    have hopen : next (value stack) .openArray = some (value (.arr [] :: stack)) := by simp [next]
    rw [lexemes, itemLexemes_eq, List.cons_append, run_cons, hopen, Option.bind_some]
    cases items with
    | nil => rfl
    | cons v vs => exact run_items ih [] stack
  | obj fields ih =>
    have hopen : next (value stack) .openObject = some (key [] stack) := by simp [next]
    rw [lexemes, fieldLexemes_eq, List.cons_append, run_cons, hopen, Option.bind_some]
    cases fields with
    | nil => rfl
    | cons f fs => exact run_fields ih [] stack

end Builder

/-- The document of a sequence of lexemes. -/
def ofLexemes? (ts : List Lexeme) : Option Json :=
  match Builder.run (.value []) ts with
  | some (.done v) => some v
  | _ => none

/-- The document that a text spells. -/
def ofText? (s : List Char) : Option Json :=
  (lexemes? s).bind ofLexemes?

/-- A text that spells a document is read as that document. -/
theorem ofText?_of_spells {v : Json} {s : List Char} (h : v.Spells s) : ofText? s = some v := by
  obtain ⟨ws, hw, hs⟩ := h
  rw [ofText?, lexemes?_of_spaced hw hs, Option.bind_some, ofLexemes?, Builder.run_lexemes]
  rfl

end PawnApi.Json
