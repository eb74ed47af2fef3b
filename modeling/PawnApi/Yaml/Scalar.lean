/-
  YAML scalars: plain, quoted and block text.

  Text that runs over several lines is folded. A single line end between two lines
  becomes a space, and of several the first is dropped. Each reader gives the text and
  the place after it, or fails.
-/
import PawnApi.Yaml.Cursor

namespace PawnApi.Yaml

/-- How a scalar is written. -/
inductive Style where
  | plain
  | singleQuoted
  | doubleQuoted
  | literal
  | folded
  deriving DecidableEq, Repr

/-- A scalar that has been read. -/
structure Reading where
  text : List Char
  after : Cursor
  /-- Whether the scalar was followed by a line end. -/
  endsLine : Bool := false
  deriving DecidableEq, Repr

/-- A reading with more text in front. -/
def Reading.prepend (s : List Char) (r : Reading) : Reading :=
  { r with text := s ++ r.text }

/-! ## Blanks inside a scalar -/

/-- Moves past blanks and line ends, and gives the line ends. A tab before column `indent`
    is refused. -/
def collectEnds (indent : Nat) (c : Cursor) : Option (List Char × Cursor) :=
  match _h : c.rest with
  | [] => some ([], c)
  | x :: _ =>
    if isBlank x then
      if c.column < indent && x = '\t' then none else collectEnds indent (c.advance 1)
    else if isBreak x then (collectEnds indent c.nextLine).map fun p => (x :: p.1, p.2)
    else some ([], c)
termination_by c.rest.length
decreasing_by all_goals simp [Cursor.advance, Cursor.nextLine, _h]

/-- The text that line ends stand for. -/
def foldEnds : List Char → List Char
  | ['\n'] => [' ']
  | '\n' :: more => more
  | ends => ends

/-- What stands between two stretches of text. -/
structure Break where
  /-- The text that it stands for. -/
  text : List Char := []
  /-- Whether a line ends in it. -/
  endsLine : Bool := false
  deriving DecidableEq, Repr

/-- Reads blanks and, if a line ends after them, all line ends and blanks that follow. -/
def readBreak (indent : Nat) (c : Cursor) : Option (Break × Cursor) :=
  if c.skipBlanks.peek.any isBreak then
    (collectEnds indent c.skipBlanks).map fun p => (⟨foldEnds p.1, true⟩, p.2)
  else some (⟨c.rest.takeWhile isBlank, false⟩, c.skipBlanks)

theorem length_le_of_collectEnds_eq_some {indent : Nat} {c e : Cursor} {ends : List Char}
    (h : collectEnds indent c = some (ends, e)) : e.rest.length ≤ c.rest.length := by
  fun_induction collectEnds indent c generalizing ends with
  | case1 c hc =>
    simp only [Option.some.injEq, Prod.mk.injEq] at h
    exact h.2 ▸ Nat.le_refl _
  | case2 => simp at h
  | case3 c x r hc hx htab ih => exact Nat.le_trans (ih h) (c.length_advance_le 1)
  | case4 c x r hc hx hb ih =>
    obtain ⟨p, hp, heq⟩ := Option.map_eq_some_iff.mp h
    obtain rfl := (Prod.mk.inj heq).2
    exact Nat.le_trans (ih hp) c.length_nextLine_le
  | case5 c x r hc hx hb =>
    simp only [Option.some.injEq, Prod.mk.injEq] at h
    exact h.2 ▸ Nat.le_refl _

theorem length_le_of_readBreak_eq_some {indent : Nat} {c e : Cursor} {b : Break}
    (h : readBreak indent c = some (b, e)) : e.rest.length ≤ c.rest.length := by
  have hskip : c.skipBlanks.rest.length ≤ c.rest.length := Cursor.length_skipWhile_le _ c
  unfold readBreak at h
  split at h
  · obtain ⟨p, hp, heq⟩ := Option.map_eq_some_iff.mp h
    obtain rfl := (Prod.mk.inj heq).2
    exact Nat.le_trans (length_le_of_collectEnds_eq_some hp) hskip
  · simp only [Option.some.injEq, Prod.mk.injEq] at h
    exact h.2 ▸ hskip

/-- A break that starts with a blank or a line end is not empty. -/
theorem length_lt_of_readBreak_eq_some {indent : Nat} {c e : Cursor} {b : Break}
    (hc : c.rest ≠ []) (hsep : isSeparator c.peek = true)
    (h : readBreak indent c = some (b, e)) : e.rest.length < c.rest.length := by
  obtain ⟨x, r, hr⟩ := List.exists_cons_of_ne_nil hc
  have hx : isBlank x = true ∨ isBreak x = true := by
    simpa [Cursor.peek, hr, isSeparator] using hsep
  by_cases hblank : isBlank x = true
  · have hskip : c.skipBlanks.rest.length < c.rest.length := by
      simp only [Cursor.skipBlanks, Cursor.skipWhile, Cursor.advance, List.length_drop, hr,
        List.takeWhile_cons_of_pos hblank, List.length_cons]
      omega
    unfold readBreak at h
    split at h
    · obtain ⟨p, hp, heq⟩ := Option.map_eq_some_iff.mp h
      obtain rfl := (Prod.mk.inj heq).2
      exact Nat.lt_of_le_of_lt (length_le_of_collectEnds_eq_some hp) hskip
    · simp only [Option.some.injEq, Prod.mk.injEq] at h
      exact h.2 ▸ hskip
  · have hbreak : isBreak x = true := hx.resolve_left hblank
    have hstay : c.skipBlanks = c := by
      simp only [Cursor.skipBlanks, Cursor.skipWhile, Cursor.advance, byteCount, hr,
        List.takeWhile_cons_of_neg hblank, List.length_nil, List.drop_zero, List.take_zero,
        List.foldl_nil, Nat.add_zero]
      rw [← hr]
    rw [readBreak, hstay, if_pos (by simp [Cursor.peek, hr, hbreak])] at h
    obtain ⟨p, hp, heq⟩ := Option.map_eq_some_iff.mp h
    obtain rfl := (Prod.mk.inj heq).2
    rw [collectEnds] at hp
    split at hp
    · rename_i hnil
      exact absurd hnil hc
    · rename_i y s hcons
      obtain ⟨rfl, rfl⟩ := List.cons.inj (hr.symm.trans hcons)
      rw [if_neg hblank, if_pos hbreak] at hp
      obtain ⟨q, hq, heq'⟩ := Option.map_eq_some_iff.mp hp
      have hle := length_le_of_collectEnds_eq_some hq
      rw [← heq']
      simp only [Cursor.nextLine, List.length_drop, hr, List.length_cons] at hle ⊢
      omega

/-! ## Plain scalars -/

/-- The characters that end a plain scalar in a flow collection. -/
def isFlowIndicator (c : Char) : Bool :=
  c = ',' || c = '[' || c = ']' || c = '{' || c = '}'

/-- The stretch of plain text at the front, without blanks. A colon in a flow collection
    that touches an indicator is refused. -/
def plainRun (inFlow : Bool) : List Char → Option (List Char)
  | [] => some []
  | c :: r =>
    if isSeparator (some c) then some []
    else if inFlow && c = ':' && r.head?.any (fun d => isFlowIndicator d || d = '?') then none
    else if (c = ':' && isSeparator r.head?) || (inFlow && isFlowIndicator c) then some []
    else (plainRun inFlow r).map (c :: ·)

/-- Reads plain text. `indent` is the least column of a continuation line in block
    context, and `b` the break before the text. -/
def readPlain (inFlow : Bool) (indent : Nat) (b : Break) (c : Cursor) : Option Reading :=
  if c.atDocumentMarker || c.peek = some '#' then some ⟨[], c, b.endsLine⟩
  else
    match _hrun : plainRun inFlow c.rest with
    | none => none
    | some [] => some ⟨[], c, b.endsLine⟩
    | some (x :: xs) =>
      let run := x :: xs
      let text := b.text ++ run
      let d := c.advance run.length
      if !d.peek.any (isSeparator ∘ some) then some ⟨text, d, false⟩
      else
        match _hbreak : readBreak indent d with
        | none => none
        | some (b, e) =>
          if !inFlow && e.column < indent then some ⟨text, e, b.endsLine⟩
          else (readPlain inFlow indent b e).map (Reading.prepend text)
termination_by c.rest.length
decreasing_by
  have hle := length_le_of_readBreak_eq_some _hbreak
  have hpos : 0 < c.rest.length := by
    cases hc : c.rest with
    | nil => simp [hc, plainRun] at _hrun
    | cons => simp
  simp only [d, run, Cursor.advance, List.length_drop, List.length_cons] at hle
  omega

/-! ## Quoted scalars -/

/-- The value of a hexadecimal digit. -/
def hexValue? (c : Char) : Option Nat :=
  if '0' ≤ c && c ≤ '9' then some (c.toNat - 0x30)
  else if 'a' ≤ c && c ≤ 'f' then some (c.toNat - 0x57)
  else if 'A' ≤ c && c ≤ 'F' then some (c.toNat - 0x37)
  else none

/-- The character that `n` hexadecimal digits spell. -/
def hexChar? (n : Nat) (s : List Char) : Option Char := do
  let digits ← (s.take n).mapM hexValue?
  guard (digits.length = n)
  let value := digits.foldl (fun v d => v * 16 + d) 0
  guard (value.isValidChar)
  return Char.ofNat value

/-- The character that an escape stands for, and the number of characters after the
    backslash that spell it. -/
def escape? : List Char → Option (Char × Nat)
  | [] => none
  | c :: r =>
    match c with
    | '0' => some ('\x00', 1)
    | 'a' => some ('\x07', 1)
    | 'b' => some ('\x08', 1)
    | 't' | '\t' => some ('\t', 1)
    | 'n' => some ('\n', 1)
    | 'v' => some ('\x0b', 1)
    | 'f' => some ('\x0c', 1)
    | 'r' => some ('\r', 1)
    | 'e' => some ('\x1b', 1)
    | ' ' => some (' ', 1)
    | '"' => some ('"', 1)
    | '/' => some ('/', 1)
    | '\\' => some ('\\', 1)
    | 'N' => some ('\u0085', 1)
    | '_' => some ('\u00a0', 1)
    | 'L' => some ('\u2028', 1)
    | 'P' => some ('\u2029', 1)
    | 'x' => (hexChar? 2 r).map fun v => (v, 3)
    | 'u' => (hexChar? 4 r).map fun v => (v, 5)
    | 'U' => (hexChar? 8 r).map fun v => (v, 9)
    | _ => none

/-- A stretch of quoted text: the text, the number of characters that spell it, and
    whether an escaped line end cut it short. -/
structure QuotedRun where
  text : List Char := []
  width : Nat := 0
  escaped : Bool := false
  deriving DecidableEq, Repr

/-- A stretch with one more character in front, spelt by `n` characters. -/
def QuotedRun.push (c : Char) (n : Nat) (q : QuotedRun) : QuotedRun :=
  { q with text := c :: q.text, width := n + q.width }

/-- The stretch at the front without blanks between single quotes, where a quote is
    written twice. -/
def singleRun : List Char → QuotedRun
  | [] => {}
  | '\'' :: '\'' :: r => (singleRun r).push '\'' 2
  | c :: r => if c = '\'' || isSeparator (some c) then {} else (singleRun r).push c 1

/-- The stretch at the front without blanks between double quotes, where a backslash
    starts an escape. -/
def doubleRun (s : List Char) : Option QuotedRun :=
  match s with
  | [] => some {}
  | '\\' :: r =>
    if r.head?.any isBreak then some ⟨[], 1, true⟩
    else
      match escape? r with
      | none => none
      | some (c, n) => (doubleRun (r.drop n)).map (QuotedRun.push c (n + 1))
  | c :: r =>
    if c = '"' || isSeparator (some c) then some {}
    else (doubleRun r).map (QuotedRun.push c 1)
termination_by s.length
decreasing_by
  · simp only [List.length_drop, List.length_cons]
    omega
  · simp

/-- Reads text up to its closing quote. After an escaped line end the others all count. -/
def readQuoted (quote : Char) (c : Cursor) : Option Reading :=
  if _hc : c.atDocumentMarker ∨ c.rest = [] then none
  else
    match (if quote = '"' then doubleRun c.rest else some (singleRun c.rest)) with
    | none => none
    | some q =>
      let d := c.advance q.width
      if q.escaped then
        match _hends : collectEnds 0 d.nextLine with
        | none => none
        | some (ends, e) => (readQuoted quote e).map (Reading.prepend (q.text ++ ends))
      else if d.peek = some quote then some ⟨q.text, d.advance 1, false⟩
      else if _hd : d.rest = [] ∨ isSeparator d.peek = false then none
      else
        match _hbreak : readBreak 0 d with
        | none => none
        | some (b, e) => (readQuoted quote e).map (Reading.prepend (q.text ++ b.text))
termination_by c.rest.length
decreasing_by
  · have hle := length_le_of_collectEnds_eq_some _hends
    have hpos : 0 < c.rest.length := List.length_pos_iff.mpr fun h => _hc (.inr h)
    simp only [d, Cursor.nextLine, Cursor.advance, List.length_drop] at hle
    omega
  · have hlt := length_lt_of_readBreak_eq_some (fun h => _hd (.inl h))
      (by simpa using fun h => _hd (.inr h)) _hbreak
    have hle := c.length_advance_le q.width
    simp only [d] at hlt
    omega

/-! ## Block scalars -/

/-- What happens to the line ends after a block scalar. -/
inductive Chomp where
  /-- All are dropped. -/
  | strip
  /-- The first is kept. -/
  | clip
  /-- All are kept. -/
  | keep
  deriving DecidableEq, Repr

/-- A chomping indicator. -/
def chomp? : Option Char → Option Chomp
  | some '+' => some .keep
  | some '-' => some .strip
  | _ => none

/-- An indentation indicator, from 1 to 9; `none` for a zero, which is refused. -/
def increment? (c : Cursor) : Option (Nat × Cursor) :=
  match c.peek with
  | some d =>
    if d = '0' then none
    else if d.isDigit then some (d.toNat - 0x30, c.advance 1)
    else some (0, c)
  | none => some (0, c)

/-- The two indicators after the start of a block scalar, in either order, and the rest
    of that line, which may hold a comment only. -/
def readHeader (c : Cursor) : Option (Chomp × Nat × Cursor) := do
  let (chomp, increment, c) ←
    match chomp? c.peek with
    | some chomp => (increment? (c.advance 1)).map fun p => (chomp, p.1, p.2)
    | none => (increment? c).map fun p =>
        match (if p.1 = 0 then none else chomp? p.2.peek) with
        | some chomp => (chomp, p.1, p.2.advance 1)
        | none => (Chomp.clip, p.1, p.2)
  let c := c.skipBlanks.skipComment
  guard (isLineEnd c.peek)
  return (chomp, increment, c.skipLineEnd)

/-- Moves past spaces, up to column `indent`. With `indent` zero all spaces are passed. -/
def skipSpaces (indent : Nat) (c : Cursor) : Cursor :=
  let room := if indent = 0 then c.rest.length else indent - c.column
  c.advance ((c.rest.take room).takeWhile (· = ' ')).length

theorem length_skipSpaces_le (indent : Nat) (c : Cursor) :
    (skipSpaces indent c).rest.length ≤ c.rest.length :=
  Cursor.length_advance_le c _

/-- Indentation and empty lines in a block scalar: the line ends met and the widest
    indentation. With `indent` zero the indentation is not known yet. -/
def readBreaks (indent : Nat) (widest : Nat) (c : Cursor) : Option (List Char × Nat × Cursor) :=
  let d := skipSpaces indent c
  let widest := max widest d.column
  match _h : d.rest with
  | [] => some ([], widest, d)
  | x :: _ =>
    if (indent = 0 || d.column < indent) && x = '\t' then none
    else if isBreak x then
      (readBreaks indent widest d.nextLine).map fun p => (x :: p.1, p.2)
    else some ([], widest, d)
termination_by c.rest.length
decreasing_by
  have h₁ := length_skipSpaces_le indent c
  have h₂ := congrArg List.length _h
  simp only [d, List.length_cons] at h₂
  simp only [Cursor.nextLine, List.length_drop]
  omega

theorem length_le_of_readBreaks_eq_some {indent widest : Nat} {c e : Cursor} {ends : List Char}
    {w : Nat} (h : readBreaks indent widest c = some (ends, w, e)) :
    e.rest.length ≤ c.rest.length := by
  fun_induction readBreaks indent widest c generalizing ends w with
  | case1 _ c =>
    simp only [Option.some.injEq, Prod.mk.injEq] at h
    exact h.2.2 ▸ length_skipSpaces_le indent c
  | case2 => simp at h
  | case3 _ c =>
    rename_i ih
    obtain ⟨⟨_, _, _⟩, hp, heq⟩ := Option.map_eq_some_iff.mp h
    simp only [Prod.mk.injEq] at heq
    obtain ⟨-, rfl, rfl⟩ := heq
    exact Nat.le_trans (ih hp)
      (Nat.le_trans (Cursor.length_nextLine_le _) (length_skipSpaces_le indent c))
  | case4 _ c =>
    simp only [Option.some.injEq, Prod.mk.injEq] at h
    exact h.2.2 ▸ length_skipSpaces_le indent c

/-- What comes after a line of a block scalar, or before its first line. -/
structure LineTail where
  /-- The line end. -/
  lineEnd : List Char := []
  /-- The line ends of the empty lines after it. -/
  empty : List Char := []
  /-- Whether the line starts with a blank, so that it is not folded. -/
  spaced : Bool := false
  deriving DecidableEq, Repr

/-- The text between a line and the next one. Between two lines of folded text that do
    not start with a blank, a lone line end becomes a space, and of several the first is
    dropped. -/
def LineTail.text (t : LineTail) (style : Style) (spaced : Bool) : List Char :=
  if style = .folded && t.lineEnd = ['\n'] && !t.spaced && !spaced then
    if t.empty.isEmpty then [' '] else t.empty
  else t.lineEnd ++ t.empty

/-- Reads the lines of a block scalar. `t` is what comes before them. -/
def readBlockLines (style : Style) (indent : Nat) (t : LineTail) (c : Cursor) :
    Option (List Char × LineTail × Cursor) :=
  if _hc : c.column = indent ∧ c.rest ≠ [] then
    let spaced := c.peek.any isBlank
    let line := c.rest.takeWhile (!isBreak ·)
    let d := c.advance line.length
    match _h : readBreaks indent 0 d.skipLineEnd with
    | none => none
    | some (empty, _, e) =>
      (readBlockLines style indent ⟨d.rest.take 1, empty, spaced⟩ e).map fun p =>
        (t.text style spaced ++ line ++ p.1, p.2)
  else some ([], t, c)
termination_by c.rest.length
decreasing_by
  have hle := length_le_of_readBreaks_eq_some _h
  have hlt := c.length_skipLine_lt _hc.2
  simp only [d, line] at hle
  exact Nat.lt_of_le_of_lt hle hlt

/-- Reads a block scalar after its first character. `outer` is the column of the block
    that holds it, if there is one. -/
def readBlock (style : Style) (outer : Option Nat) (c : Cursor) : Option Reading := do
  let (chomp, increment, c) ← readHeader c
  let known := if increment = 0 then 0 else outer.getD 0 + increment
  let (empty, widest, c) ← readBreaks known 0 c
  let least := match outer with
    | some n => n + 1
    | none => 1
  let indent := if known = 0 then max widest least else known
  let (text, t, c) ← readBlockLines style indent { empty } c
  let tail := match chomp with
    | .strip => []
    | .clip => t.lineEnd
    | .keep => t.lineEnd ++ t.empty
  return ⟨text ++ tail, c, false⟩

end PawnApi.Yaml
