/-
  Tokens, each with the gap before it.

  `lex` cuts a text into tokens and loses nothing: the gaps and token texts in order,
  and the tail after the last token, are the text again (`Lexed.text_lex`). A literal
  that is not closed on its line ends before the line feed. A character that starts
  nothing else is a token of its own.
-/
import PawnApi.Source.Gap

namespace PawnApi.Source

/-- What a token is. -/
inductive TokenKind where
  /-- A letter or underscore, then letters, digits and underscores. -/
  | ident
  /-- A digit, then letters, digits, underscores and points. -/
  | number
  /-- A literal between double quotes. -/
  | str
  /-- A literal between single quotes. -/
  | char
  /-- Any other single character. -/
  | punct
  deriving DecidableEq, Repr

/-- A token and the gap that stands before it. -/
structure Token where
  gap : List Char
  kind : TokenKind
  text : List Char
  /-- No other token precedes this one on its line. -/
  opensLine : Bool
  deriving DecidableEq, Repr

/-! ## Character classes -/

def isLetter (c : Char) : Bool :=
  c.isAlpha || c = '_'

def isIdentChar (c : Char) : Bool :=
  c.isAlphanum || c = '_'

def isNumberChar (c : Char) : Bool :=
  c.isAlphanum || c = '_' || c = '.'

/-! ## One token -/

/-- Splits the text after an opening quote at the end of its literal. A backslash takes
    the next character with it, whatever that is. -/
def splitLiteral (quote : Char) : List Char → List Char × List Char
  | [] => ([], [])
  | '\\' :: c :: r =>
    let p := splitLiteral quote r
    ('\\' :: c :: p.1, p.2)
  | c :: r =>
    if c = quote then ([c], r)
    else if c = '\n' then ([], c :: r)
    else
      let p := splitLiteral quote r
      (c :: p.1, p.2)

theorem append_splitLiteral (quote : Char) (s : List Char) :
    (splitLiteral quote s).1 ++ (splitLiteral quote s).2 = s := by
  fun_induction splitLiteral quote s with
  | case1 => rfl
  | case2 c r p ih => simpa [p] using ih
  | case3 => rfl
  | case4 => rfl
  | case5 c r _ _ _ p ih => simpa [p] using ih

/-- The token that starts with `c`, after a gap that may hold anything: its kind, the
    rest of its text, and the text after it. -/
def splitToken (c : Char) (s : List Char) : TokenKind × List Char × List Char :=
  if isLetter c then (.ident, s.takeWhile isIdentChar, s.dropWhile isIdentChar)
  else if c.isDigit then (.number, s.takeWhile isNumberChar, s.dropWhile isNumberChar)
  else if c = '"' then (.str, splitLiteral c s)
  else if c = '\'' then (.char, splitLiteral c s)
  else (.punct, [], s)

theorem append_splitToken (c : Char) (s : List Char) :
    (splitToken c s).2.1 ++ (splitToken c s).2.2 = s := by
  unfold splitToken
  split
  · exact List.takeWhile_append_dropWhile
  split
  · exact List.takeWhile_append_dropWhile
  split
  · exact append_splitLiteral c s
  split
  · exact append_splitLiteral c s
  · rfl

theorem length_splitToken_le (c : Char) (s : List Char) :
    (splitToken c s).2.2.length ≤ s.length := by
  have := congrArg List.length (append_splitToken c s)
  simp only [List.length_append] at this
  omega

/-! ## A whole text -/

/-- A text cut into tokens, with the gap after the last one. -/
structure Lexed where
  tokens : List Token
  tail : List Char
  deriving DecidableEq, Repr

/-- Cuts a text into tokens. `first` says that no token has been met yet, so that the
    next one opens its line whatever the gap before it holds. -/
def lexFrom (first : Bool) (s : List Char) : Lexed :=
  match _h : splitGap s with
  | (gap, []) => ⟨[], gap⟩
  | (gap, c :: r) =>
    let t := splitToken c r
    let l := lexFrom false t.2.2
    ⟨⟨gap, t.1, c :: t.2.1, first || gap.contains '\n'⟩ :: l.tokens, l.tail⟩
termination_by s.length
decreasing_by
  have hs := length_splitGap_le s
  have ht := length_splitToken_le c r
  simp only [_h, List.length_cons] at hs
  omega

/-- Cuts a text into tokens. -/
def lex (s : List Char) : Lexed :=
  lexFrom true s

/-- The tokens of a text. -/
def tokens (s : List Char) : List Token :=
  (lex s).tokens

namespace Token

/-- The text of consecutive tokens with the gaps before them. -/
def render (ts : List Token) : List Char :=
  ts.flatMap fun t => t.gap ++ t.text

/-- The text from the start of the first token through the end of the last. -/
def span : List Token → List Char
  | [] => []
  | t :: ts => t.text ++ render ts

/-- Whether the token is the word `w`. -/
def isWord (t : Token) (w : String) : Bool :=
  t.kind = .ident && t.text = w.toList

/-- Whether the token is the single character `c`. -/
def isPunct (t : Token) (c : Char) : Bool :=
  t.kind = .punct && t.text = [c]

/-- The token's text, if it is an identifier. -/
def ident? (t : Token) : Option String :=
  if t.kind = .ident then some (String.ofList t.text) else none

@[simp] theorem render_nil : render [] = [] := rfl

@[simp] theorem render_cons (t : Token) (ts : List Token) :
    render (t :: ts) = t.gap ++ t.text ++ render ts := by
  simp [render]

@[simp] theorem render_append (ts us : List Token) :
    render (ts ++ us) = render ts ++ render us := by
  simp [render]

end Token

namespace Lexed

/-- The text that was cut. -/
def text (l : Lexed) : List Char :=
  Token.render l.tokens ++ l.tail

theorem text_lexFrom (first : Bool) (s : List Char) : (lexFrom first s).text = s := by
  fun_induction lexFrom first s with
  | case1 first s gap h =>
    have := append_splitGap s
    rw [h] at this
    simpa [text] using this
  | case2 first s gap c r h t l ih =>
    have hs := append_splitGap s
    have ht := append_splitToken c r
    rw [h] at hs
    simp only [text] at ih
    simp only [text, Token.render_cons, List.append_assoc, List.cons_append]
    rw [ih, ht, ← hs]

/-- Lexing loses nothing. -/
@[simp] theorem text_lex (s : List Char) : (lex s).text = s :=
  text_lexFrom true s

end Lexed

/-! ## Offsets -/

/-- The number of bytes a text takes in UTF-8. -/
def byteSize : List Char → Nat
  | [] => 0
  | c :: s => c.utf8Size + byteSize s

/-- The byte offsets at which each token starts and ends, if the gap before the first
    token starts at offset `n`. -/
def offsetsFrom (n : Nat) : List Token → List (Nat × Nat)
  | [] => []
  | t :: ts =>
    let start := n + byteSize t.gap
    let stop := start + byteSize t.text
    (start, stop) :: offsetsFrom stop ts

/-- The byte offsets at which each token of a text starts and ends. -/
def offsets (ts : List Token) : List (Nat × Nat) :=
  offsetsFrom 0 ts

end PawnApi.Source
