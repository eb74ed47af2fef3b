/-
  PawnApi.Proofs.Bytewise.Lexer

  Tokens found byte by byte.

  The scan stands at a byte offset and takes one blank, one comment or one token in each
  turn of its loop. Inside a literal a backslash skips two bytes, whatever they are, so
  the scan of a literal may stand inside a character or past the end; the bytes there are
  all 128 or more, so that it comes out between two characters again (`run_quotedLoop`).
  Every turn leads on to a later offset (`lt_of_lexTurn`), none of them is stopped by a
  trap, and the tokens found are those of the text with their offsets (`tokenize_eq`).
-/
import PawnApi.Proofs.Bytewise.Basic

namespace PawnApi.Bytewise

open PawnApi.Source

/-! ## Literals -/

/-- One turn of the scan of a literal. -/
def quotedTurn (bs : List UInt8) (quote : Char) (pos : Nat) : Checked (Turn Nat Nat) := do
  let b ← byteAt bs pos
  return if b = '\\' then .again (pos + 2)
    else if b = '\n' then .done pos
    else if b = quote then .done (pos + 1)
    else .again (pos + 1)

theorem lt_of_quotedTurn {bs : List UInt8} {quote : Char} {pos pos' : Nat}
    (h : quotedTurn bs quote pos = .ok (.again pos')) : pos < pos' := by
  obtain ⟨b, -, hb⟩ := bind_eq_ok_iff.1 h
  have hturn := Except.ok.inj hb
  split at hturn
  · cases hturn
    omega
  split at hturn
  · cases hturn
  split at hturn
  · cases hturn
  · cases hturn
    omega

def quotedLoop (bs : List UInt8) (quote : Char) : Loop Nat Nat where
  left pos := bs.length - pos
  body := quotedTurn bs quote
  exit _ := bs.length
  progress hpos h := by
    have := lt_of_quotedTurn h
    omega

/-- The offset behind the literal whose quote stands at `start`. -/
def quotedEnd (bs : List UInt8) (start : Nat) (quote : Char) : Checked Nat :=
  (quotedLoop bs quote).run (start + 1)

/-- A literal ends behind its quote. -/
theorem lt_of_quotedEnd {bs : List UInt8} {start stop : Nat} {quote : Char}
    (hs : start < bs.length) (h : quotedEnd bs start quote = .ok stop) : start < stop := by
  refine Loop.run_induction (P := (start < ·)) (Nat.lt_succ_self start) ?_ ?_ ?_ h
  · intro pos pos' _ hpos hturn
    exact Nat.lt_trans hpos (lt_of_quotedTurn hturn)
  · intro pos stop' _ hpos hturn
    obtain ⟨b, -, hb⟩ := bind_eq_ok_iff.1 hturn
    have hdone := Except.ok.inj hb
    split at hdone
    · cases hdone
    split at hdone
    · cases hdone
      exact hpos
    split at hdone
    · cases hdone
      omega
    · cases hdone
  · intro _ _ _
    exact hs

theorem quotedTurn_of_byteAt {bs : List UInt8} {b : Char} {pos : Nat}
    (h : byteAt bs pos = .ok b) (quote : Char) :
    quotedTurn bs quote pos
      = .ok (if b = '\\' then .again (pos + 2)
        else if b = '\n' then .done pos
        else if b = quote then .done (pos + 1)
        else .again (pos + 1)) := by
  rw [quotedTurn, h]
  rfl

theorem left_quotedLoop_append {a r : List Char} (quote : Char) {k : Nat} (hk : k < byteSize r) :
    0 < (quotedLoop (bytes (a ++ r)) quote).left (byteSize a + k) := by
  show 0 < (bytes (a ++ r)).length - (byteSize a + k)
  rw [length_bytes, byteSize_append]
  omega

/-- Inside a character the scan of a literal goes on to its end. -/
theorem run_quotedLoop_inside {c : Char} (hc : 128 ≤ c.toNat) {quote : Char}
    (hq : quote.toNat < 128) (a r : List Char) {k : Nat} (hk : k ≤ c.utf8Size) :
    (quotedLoop (bytes (a ++ c :: r)) quote).run (byteSize a + k)
      = (quotedLoop (bytes (a ++ c :: r)) quote).run (byteSize a + c.utf8Size) := by
  -- by the number of bytes up to the end of the character
  obtain ⟨n, hn⟩ := Nat.exists_eq_add_of_le hk
  induction n generalizing k with
  | zero => rw [hn, Nat.add_zero]
  | succ n ih =>
    obtain ⟨b, hb, hbig⟩ := exists_byteAt_append hc a r (k := k) (by omega)
    have hne : ∀ e : Char, e.toNat < 128 → b ≠ e := by
      rintro e he rfl
      omega
    have hturn := quotedTurn_of_byteAt hb quote
    rw [if_neg (hne _ (by decide)), if_neg (hne _ (by decide)), if_neg (hne _ hq)] at hturn
    have hleft := left_quotedLoop_append (a := a) (r := c :: r) quote (k := k)
      (by rw [byteSize_cons]; omega)
    rw [Loop.run_of_again hleft hturn, Nat.add_assoc]
    exact ih (by omega) (by omega)

/-- One byte behind the start of a character is as good as behind all of it. -/
theorem run_quotedLoop_behind {quote : Char} (hq : quote.toNat < 128) (a r : List Char) (c : Char) :
    (quotedLoop (bytes (a ++ c :: r)) quote).run (byteSize a + 1)
      = (quotedLoop (bytes (a ++ c :: r)) quote).run (byteSize a + c.utf8Size) := by
  rcases Nat.lt_or_ge c.toNat 128 with hc | hc
  · rw [Text.Utf8.utf8Size_of_lt hc]
  · exact run_quotedLoop_inside hc hq a r c.utf8Size_pos

theorem run_quotedLoop_of_byteSize_le (quote : Char) {a : List Char} {pos : Nat}
    (h : byteSize a ≤ pos) : (quotedLoop (bytes a) quote).run pos = .ok (byteSize a) := by
  have hleft : (quotedLoop (bytes a) quote).left pos = 0 := by
    show (bytes a).length - pos = 0
    rw [length_bytes]
    omega
  rw [Loop.run_of_left_eq_zero hleft]
  exact congrArg Except.ok (length_bytes a)

/-- A character that means nothing to the scan of a literal is passed over. -/
theorem run_quotedLoop_plain {quote c : Char} (hq : quote.toNat < 128) (hb : c ≠ '\\')
    (hn : c ≠ '\n') (hc : c ≠ quote) (a r : List Char) :
    (quotedLoop (bytes (a ++ c :: r)) quote).run (byteSize a)
      = (quotedLoop (bytes (a ++ c :: r)) quote).run (byteSize a + c.utf8Size) := by
  rcases Nat.lt_or_ge c.toNat 128 with hlt | hge
  · have hturn := quotedTurn_of_byteAt (byteAt_append_of_lt hlt a r) quote
    rw [if_neg hb, if_neg hn, if_neg hc] at hturn
    have hleft := left_quotedLoop_append (a := a) quote (byteSize_pos (List.cons_ne_nil c r))
    rw [Text.Utf8.utf8Size_of_lt hlt]
    exact Loop.run_of_again hleft hturn
  · exact run_quotedLoop_inside (k := 0) hge hq a r (Nat.zero_le _)

/-- The scan of a literal ends where the literal ends. -/
theorem run_quotedLoop {quote : Char} (hq : quote = '"' ∨ quote = '\'') (a r : List Char) :
    (quotedLoop (bytes (a ++ r)) quote).run (byteSize a)
      = .ok (byteSize a + byteSize (splitLiteral quote r).1) := by
  have hq128 : quote.toNat < 128 := by rcases hq with rfl | rfl <;> decide
  have hqb : quote ≠ '\\' := by rcases hq with rfl | rfl <;> decide
  have hqn : quote ≠ '\n' := by rcases hq with rfl | rfl <;> decide
  have hleft : ∀ (a r : List Char) (c : Char),
      0 < (quotedLoop (bytes (a ++ c :: r)) quote).left (byteSize a) :=
    fun a r c => left_quotedLoop_append quote (byteSize_pos (List.cons_ne_nil c r))
  fun_induction splitLiteral quote r generalizing a with
  | case1 =>
    rw [List.append_nil]
    exact run_quotedLoop_of_byteSize_le quote (Nat.le_refl _)
  | case2 c r p ih =>
    -- the two bytes that are skipped may end inside the character behind the backslash
    have hturn := quotedTurn_of_byteAt (byteAt_append_of_lt (c := '\\') (by decide) a (c :: r)) quote
    rw [if_pos rfl] at hturn
    rw [Loop.run_of_again (hleft a (c :: r) '\\') hturn]
    have hbehind := run_quotedLoop_behind hq128 (a ++ ['\\']) r c
    have hrest := ih (a ++ ['\\', c])
    simp only [List.append_assoc, List.cons_append, List.nil_append, byteSize_append,
      byteSize_cons, byteSize_nil, Nat.add_zero, show ('\\').utf8Size = 1 from rfl] at hbehind hrest
    rw [show byteSize a + 2 = byteSize a + 1 + 1 from rfl, hbehind, Nat.add_assoc, hrest]
    simp only [p, byteSize_cons, show ('\\').utf8Size = 1 from rfl]
    congr 1
    omega
  | case3 r _ =>
    -- the closing quote belongs to the literal
    have hturn := quotedTurn_of_byteAt (byteAt_append_of_lt hq128 a r) quote
    rw [if_neg hqb, if_neg hqn, if_pos rfl] at hturn
    rw [Loop.run_of_done (hleft a r quote) hturn, byteSize_cons, byteSize_nil,
      Text.Utf8.utf8Size_of_lt hq128]
  | case4 r _ _ =>
    -- a line feed ends a literal that is not closed, and stays behind it
    have hturn := quotedTurn_of_byteAt (byteAt_append_of_lt (c := '\n') (by decide) a r) quote
    rw [if_neg (by decide), if_pos rfl] at hturn
    exact Loop.run_of_done (hleft a r '\n') hturn
  | case5 c r hesc hc hn p ih =>
    by_cases hb : c = '\\'
    · -- a backslash at the very end
      subst hb
      obtain rfl : r = [] := by
        cases r with
        | nil => rfl
        | cons e r => exact (hesc e r rfl rfl).elim
      have hturn := quotedTurn_of_byteAt (byteAt_append_of_lt (c := '\\') (by decide) a []) quote
      rw [if_pos rfl] at hturn
      rw [Loop.run_of_again (hleft a [] '\\') hturn,
        run_quotedLoop_of_byteSize_le quote (by simp [show ('\\').utf8Size = 1 from rfl])]
      simp [p, splitLiteral]
    · have hrest := ih (a ++ [c])
      simp only [List.append_assoc, List.cons_append, List.nil_append, byteSize_append,
        byteSize_cons, byteSize_nil, Nat.add_zero] at hrest
      rw [run_quotedLoop_plain hq128 hb hn hc a r, hrest, byteSize_cons, Nat.add_assoc]

/-- A literal ends where the running reader ends it. -/
theorem quotedEnd_append {quote : Char} (hq : quote = '"' ∨ quote = '\'') (a r : List Char) :
    quotedEnd (bytes (a ++ quote :: r)) (byteSize a) quote
      = .ok (byteSize a + byteSize (quote :: (splitLiteral quote r).1)) := by
  have hsize : quote.utf8Size = 1 := by rcases hq with rfl | rfl <;> rfl
  have hrun := run_quotedLoop hq (a ++ [quote]) r
  simp only [List.append_assoc, List.singleton_append, byteSize_append, byteSize_cons,
    byteSize_nil, Nat.add_zero, hsize] at hrun
  rw [quotedEnd, hrun, byteSize_cons, hsize, Nat.add_assoc]

/-! ## Words -/

/-- One turn of the scan of a word. -/
def wordTurn (bs : List UInt8) (p : Char → Bool) (pos : Nat) : Checked (Turn Nat Nat) := do
  let b ← byteAt bs pos
  return if p b then .again (pos + 1) else .done pos

theorem lt_of_wordTurn {bs : List UInt8} {p : Char → Bool} {pos pos' : Nat}
    (h : wordTurn bs p pos = .ok (.again pos')) : pos < pos' := by
  obtain ⟨b, -, hb⟩ := bind_eq_ok_iff.1 h
  have hturn := Except.ok.inj hb
  split at hturn
  · cases hturn
    omega
  · cases hturn

def wordLoop (bs : List UInt8) (p : Char → Bool) : Loop Nat Nat where
  left pos := bs.length - pos
  body := wordTurn bs p
  exit pos := pos
  progress hpos h := by
    have := lt_of_wordTurn h
    omega

/-- The offset behind the bytes of a kind that start at `pos`. -/
def wordEnd (bs : List UInt8) (pos : Nat) (p : Char → Bool) : Checked Nat :=
  (wordLoop bs p).run pos

theorem wordTurn_of_byteAt {bs : List UInt8} {b : Char} {pos : Nat} (h : byteAt bs pos = .ok b)
    (p : Char → Bool) :
    wordTurn bs p pos = .ok (if p b then .again (pos + 1) else .done pos) := by
  rw [wordTurn, h]
  rfl

/-- A word ends behind its first byte. -/
theorem lt_of_wordEnd {bs : List UInt8} {pos stop : Nat} {b : Char} {p : Char → Bool}
    (hb : byteAt bs pos = .ok b) (hp : p b = true) (h : wordEnd bs pos p = .ok stop) :
    pos < stop := by
  have hpos : 0 < (wordLoop bs p).left pos := Nat.sub_pos_of_lt (lt_length_of_byteAt hb)
  have hturn := wordTurn_of_byteAt hb p
  rw [if_pos hp] at hturn
  rw [wordEnd, Loop.run_of_again hpos hturn] at h
  refine Loop.run_induction (P := (pos < ·)) (Nat.lt_succ_self pos) ?_ ?_ ?_ h
  · intro pos' pos'' _ hlt hagain
    exact Nat.lt_trans hlt (lt_of_wordTurn hagain)
  · intro pos' stop' _ hlt hdone
    obtain ⟨e, -, he⟩ := bind_eq_ok_iff.1 hdone
    have hstop := Except.ok.inj he
    split at hstop
    · cases hstop
    · cases hstop
      exact hlt
  · intro _ _ hlt
    exact hlt

/-- A word ends where the first character that does not belong to it stands. -/
theorem wordEnd_append {p : Char → Bool} (hp : ∀ c, p c = true → c.toNat < 128)
    (a r : List Char) :
    wordEnd (bytes (a ++ r)) (byteSize a) p = .ok (byteSize a + byteSize (r.takeWhile p)) := by
  induction r generalizing a with
  | nil =>
    refine Loop.run_of_left_eq_zero ?_
    show (bytes (a ++ [])).length - byteSize a = 0
    rw [List.append_nil, length_bytes, Nat.sub_self]
  | cons c r ih =>
    obtain ⟨b, hb, hcb⟩ := exists_byteAt_start c a r
    have hpos : 0 < (wordLoop (bytes (a ++ c :: r)) p).left (byteSize a) :=
      Nat.sub_pos_of_lt (lt_length_of_byteAt hb)
    have hturn := wordTurn_of_byteAt hb p
    -- a character of several bytes is not in a word, and neither is any of its bytes
    have hsame : p b = p c := by
      rcases hcb with ⟨-, rfl⟩ | ⟨hc, hb⟩
      · rfl
      · rw [Bool.eq_false_iff.2 fun h => absurd (hp _ h) (by omega),
          Bool.eq_false_iff.2 fun h => absurd (hp _ h) (by omega)]
    rw [hsame] at hturn
    rw [List.takeWhile_cons]
    cases hpc : p c with
    | false =>
      rw [hpc] at hturn
      exact Loop.run_of_done hpos hturn
    | true =>
      rw [hpc] at hturn
      have hrest := ih (a ++ [c])
      have hsize := Text.Utf8.utf8Size_of_lt (hp c hpc)
      simp only [List.append_assoc, List.singleton_append, byteSize_append, byteSize_cons,
        byteSize_nil, Nat.add_zero, hsize] at hrest
      rw [wordEnd, Loop.run_of_again hpos hturn, ← wordEnd, hrest, if_pos rfl, byteSize_cons,
        hsize, Nat.add_assoc]

/-! ## Tokens -/

/-- What a token is, with its character for a single one. -/
inductive Kind where
  | ident
  | number
  | str
  | char
  | punct (c : Char)
  deriving DecidableEq, Repr

/-- A token given by its offsets. -/
structure Placed where
  kind : Kind
  start : Nat
  stop : Nat
  /-- No other token precedes this one on its line. -/
  opensLine : Bool
  deriving DecidableEq, Repr

/-- Where the scan of a text stands, and what it has found. -/
structure LexState where
  pos : Nat
  /-- No token has been met on this line. -/
  opensLine : Bool
  found : List Placed
  deriving DecidableEq, Repr

/-- The token whose first byte is `b`: its kind and the offset behind it. -/
def tokenAt (s : List Char) (pos : Nat) (b : Char) : Checked (Kind × Nat) :=
  if isLetter b then do
    let stop ← wordEnd (bytes s) pos isIdentChar
    return (.ident, stop)
  else if b.isDigit then do
    let stop ← wordEnd (bytes s) pos isNumberChar
    return (.number, stop)
  else if b = '"' ∨ b = '\'' then do
    let stop ← quotedEnd (bytes s) pos b
    return (if b = '"' then .str else .char, stop)
  else do
    let rest ← excerptFrom s pos
    let c := rest.headD '\x00'
    return (.punct c, pos + max c.utf8Size 1)

/-- One turn of the scan: a line feed, another blank, a comment or a token. -/
def lexTurn (s : List Char) (st : LexState) : Checked LexState := do
  let b ← byteAt (bytes s) st.pos
  if b = '\n' then return { st with pos := st.pos + 1, opensLine := true }
  else if isSpace b then return { st with pos := st.pos + 1 }
  else if b = '/' ∧ byte? (bytes s) (st.pos + 1) = some '/' then do
    let stop ← findByte (bytes s) st.pos '\n'
    return { st with pos := stop.getD (bytes s).length }
  else if b = '/' ∧ byte? (bytes s) (st.pos + 1) = some '*' then do
    let body ← excerptFrom s (st.pos + 2)
    let stop := ((findWord? ['*', '/'] body).map (st.pos + 2 + · + 2)).getD (bytes s).length
    let comment ← excerpt s st.pos stop
    return { st with pos := stop, opensLine := st.opensLine || comment.contains '\n' }
  else do
    let (kind, stop) ← tokenAt s st.pos b
    return ⟨stop, false, st.found ++ [⟨kind, st.pos, stop, st.opensLine⟩]⟩

theorem lt_of_tokenAt {s : List Char} {pos stop : Nat} {b : Char} {kind : Kind}
    (hb : byteAt (bytes s) pos = .ok b) (h : tokenAt s pos b = .ok (kind, stop)) :
    pos < stop := by
  unfold tokenAt at h
  split at h
  · rename_i hl
    obtain ⟨e, he, hstop⟩ := bind_eq_ok_iff.1 h
    cases hstop
    exact lt_of_wordEnd hb (isIdentChar_of_isLetter hl) he
  split at h
  · rename_i hd
    obtain ⟨e, he, hstop⟩ := bind_eq_ok_iff.1 h
    cases hstop
    exact lt_of_wordEnd hb (isNumberChar_of_isDigit hd) he
  split at h
  · obtain ⟨e, he, hstop⟩ := bind_eq_ok_iff.1 h
    cases hstop
    exact lt_of_quotedEnd (lt_length_of_byteAt hb) he
  · obtain ⟨rest, -, hstop⟩ := bind_eq_ok_iff.1 h
    cases hstop
    omega

theorem lexTurn_of_byteAt {s : List Char} {st : LexState} {b : Char}
    (h : byteAt (bytes s) st.pos = .ok b) :
    lexTurn s st
      = if b = '\n' then .ok { st with pos := st.pos + 1, opensLine := true }
        else if isSpace b then .ok { st with pos := st.pos + 1 }
        else if b = '/' ∧ byte? (bytes s) (st.pos + 1) = some '/' then do
          let stop ← findByte (bytes s) st.pos '\n'
          return { st with pos := stop.getD (bytes s).length }
        else if b = '/' ∧ byte? (bytes s) (st.pos + 1) = some '*' then do
          let body ← excerptFrom s (st.pos + 2)
          let stop := ((findWord? ['*', '/'] body).map (st.pos + 2 + · + 2)).getD (bytes s).length
          let comment ← excerpt s st.pos stop
          return { st with pos := stop, opensLine := st.opensLine || comment.contains '\n' }
        else do
          let (kind, stop) ← tokenAt s st.pos b
          return ⟨stop, false, st.found ++ [⟨kind, st.pos, stop, st.opensLine⟩]⟩ := by
  rw [lexTurn, h]
  rfl

/-- Every turn of the scan leads on to a later offset. -/
theorem lt_of_lexTurn {s : List Char} {st st' : LexState} (h : lexTurn s st = .ok st') :
    st.pos < st'.pos := by
  obtain ⟨b, hb, -⟩ := bind_eq_ok_iff.1 h
  have hlt := lt_length_of_byteAt hb
  rw [lexTurn_of_byteAt hb] at h
  split at h
  · cases h
    exact Nat.lt_succ_self _
  split at h
  · cases h
    exact Nat.lt_succ_self _
  split at h
  · -- a line comment: the line feed stands behind the slash
    rename_i hslash
    obtain ⟨stop, hstop, h'⟩ := bind_eq_ok_iff.1 h
    cases h'
    cases stop with
    | none => exact hlt
    | some n =>
      refine lt_of_findByte hb ?_ hstop
      rw [hslash.1]
      decide
  split at h
  · -- a block comment: two bytes are passed before the search, or all of the text
    obtain ⟨body, -, h'⟩ := bind_eq_ok_iff.1 h
    obtain ⟨comment, -, h''⟩ := bind_eq_ok_iff.1 h'
    cases h''
    cases findWord? ['*', '/'] body with
    | none => exact hlt
    | some i =>
      simp only [Option.map_some, Option.getD_some]
      omega
  · obtain ⟨⟨kind, stop⟩, hstop, h'⟩ := bind_eq_ok_iff.1 h
    cases h'
    exact lt_of_tokenAt hb hstop

def lexLoop (s : List Char) : Loop LexState (List Placed) where
  left st := (bytes s).length - st.pos
  body st := (lexTurn s st).map .again
  exit st := st.found
  progress := by
    intro st st' hpos h
    have := lt_of_lexTurn (Turn.eq_ok_of_map_again h)
    omega

/-- The tokens of a text, by their offsets. -/
def tokenize (s : List Char) : Checked (List Placed) :=
  (lexLoop s).run ⟨0, true, []⟩

theorem run_lexLoop_of_lexTurn {s : List Char} {st st' : LexState} (h : lexTurn s st = .ok st') :
    (lexLoop s).run st = (lexLoop s).run st' := by
  obtain ⟨b, hb, -⟩ := bind_eq_ok_iff.1 h
  refine Loop.run_of_again (Nat.sub_pos_of_lt (lt_length_of_byteAt hb)) ?_
  show (lexTurn s st).map Turn.again = .ok (.again st')
  rw [h]
  rfl

/-! ## The tokens that are found -/

theorem toNat_of_isSpace {c : Char} (h : isSpace c = true) : c.toNat < 128 := by
  simp only [isSpace, Bool.or_eq_true, decide_eq_true_eq] at h
  rcases h with (((rfl | rfl) | rfl) | rfl) | rfl <;> decide

theorem excerptFrom_pair {c e : Char} (hc : c.toNat < 128) (he : e.toNat < 128)
    (a r : List Char) : excerptFrom (a ++ c :: e :: r) (byteSize a + 2) = .ok r := by
  have h := excerptFrom_append (a ++ [c, e]) r
  rwa [byteSize_append, byteSize_cons, byteSize_cons, byteSize_nil, Text.Utf8.utf8Size_of_lt hc,
    Text.Utf8.utf8Size_of_lt he, List.append_assoc] at h

/-- The byte behind a character below 128 is the next character. -/
theorem byte?_second_eq_some_iff {c e : Char} (hc : c.toNat < 128) (he : e.toNat < 128)
    (a r : List Char) :
    byte? (bytes (a ++ c :: r)) (byteSize a + 1) = some e ↔ r.head? = some e := by
  have h := byte?_append (a ++ [c]) r 0
  rw [byteSize_append, byteSize_cons, byteSize_nil, Text.Utf8.utf8Size_of_lt hc,
    List.append_assoc] at h
  rw [← byte?_zero_eq_some_iff he, ← h]
  rfl

/-- Where no comment opens, the byte behind the slash is none that would open one. -/
theorem byte?_second_ne {e : Char} (he : e.toNat < 128) (hopens : opensComment ['/', e] = true)
    {r : List Char} (ho : opensComment ('/' :: r) = false) (a : List Char) :
    byte? (bytes (a ++ '/' :: r)) (byteSize a + 1) ≠ some e := by
  intro hsecond
  have hhead := (byte?_second_eq_some_iff (by decide) he a r).1 hsecond
  cases r with
  | nil => cases hhead
  | cons c r =>
    obtain rfl : c = e := Option.some.inj hhead
    rw [show opensComment ('/' :: c :: r) = opensComment ['/', c] from rfl, hopens] at ho
    cases ho

/-- The line feed that ends a line comment is found behind it. -/
theorem takeWhile_line {body r : List Char} (hb : '\n' ∉ body) (ha : EndOfLine r) :
    ('/' :: '/' :: (body ++ r)).takeWhile (fun c => !decide (c = '\n')) = '/' :: '/' :: body := by
  have hline : (splitLine (body ++ r)).1 = body := by rw [splitLine_append_of_endOfLine hb ha]
  rw [List.takeWhile_cons_of_pos (by decide), List.takeWhile_cons_of_pos (by decide)]
  congr 2
  refine Eq.trans ?_ hline
  simp only [splitLine, ne_eq, decide_not]

/-- The body of a closed comment ends with the star-slash that is found in it. -/
theorem two_le_byteSize_of_closeComment? {s body after : List Char}
    (h : closeComment? s = some (body, after)) : 2 ≤ byteSize body := by
  obtain ⟨inner, rfl, -⟩ := exists_of_closeComment? h
  rw [byteSize_append]
  exact Nat.le_add_left _ _

/-- A blank or a comment is passed over in one turn. -/
theorem lexTurn_gapItem {r item : List Char} (h : GapItem r item) (a : List Char) (f : Bool)
    (found : List Placed) :
    lexTurn (a ++ (item ++ r)) ⟨byteSize a, f, found⟩
      = .ok ⟨byteSize a + byteSize item, f || item.contains '\n', found⟩ := by
  cases h with
  | @space c hc =>
    have hlt := toNat_of_isSpace hc
    have hb : byteAt (bytes (a ++ ([c] ++ r))) (byteSize a) = .ok c := byteAt_append_of_lt hlt a r
    rw [lexTurn_of_byteAt hb, byteSize_cons, byteSize_nil, Text.Utf8.utf8Size_of_lt hlt]
    by_cases hn : c = '\n'
    · rw [if_pos hn]
      simp [hn]
    · rw [if_neg hn, if_pos hc]
      simp [Ne.symm hn]
  | @line body hb ha =>
    have hbyte := byteAt_append_of_lt (c := '/') (by decide) a ('/' :: (body ++ r))
    have hnext := (byte?_second_eq_some_iff (c := '/') (e := '/') (by decide) (by decide) a
      ('/' :: (body ++ r))).2 rfl
    have hstop : ((findChar? (· = '\n') ('/' :: '/' :: (body ++ r))).map (byteSize a + ·)).getD
        (bytes (a ++ '/' :: '/' :: (body ++ r))).length
          = byteSize a + byteSize ('/' :: '/' :: body) := by
      rw [length_bytes, byteSize_append, getD_map_add, getD_findChar?, takeWhile_line hb ha]
    have hnl : ('/' :: '/' :: body).contains '\n' = false := by simpa using hb
    show lexTurn (a ++ '/' :: '/' :: (body ++ r)) ⟨byteSize a, f, found⟩ = _
    rw [lexTurn_of_byteAt hbyte, if_neg (by decide), if_neg (by decide), if_pos ⟨rfl, hnext⟩,
      findByte_append (by decide), ok_bind, hstop, hnl, Bool.or_false]
    rfl
  | block hc =>
    obtain ⟨body, rfl, hbody⟩ := hc.exists_eq
    have hbyte := byteAt_append_of_lt (c := '/') (by decide) a ('*' :: (body ++ r))
    have hnext := (byte?_second_eq_some_iff (c := '/') (e := '*') (by decide) (by decide) a
      ('*' :: (body ++ r))).2 rfl
    have hstop : byteSize a + 2 + (byteSize body - 2) + 2
        = byteSize a + byteSize ('/' :: '*' :: body) := by
      have := two_le_byteSize_of_closeComment? (hbody r)
      simp only [byteSize_cons, show ('/').utf8Size = 1 from rfl, show ('*').utf8Size = 1 from rfl]
      omega
    have hcut := excerpt_append a ('/' :: '*' :: body) r
    show lexTurn (a ++ '/' :: '*' :: (body ++ r)) ⟨byteSize a, f, found⟩ = _
    rw [lexTurn_of_byteAt hbyte, if_neg (by decide), if_neg (by decide),
      if_neg (by rw [hnext]; decide), if_pos ⟨rfl, hnext⟩,
      excerptFrom_pair (by decide) (by decide), ok_bind, findWord?_starSlash, hbody]
    simp only [Option.map_some, Option.getD_some, hstop]
    rw [show a ++ '/' :: '*' :: (body ++ r) = a ++ ('/' :: '*' :: body ++ r) from rfl, hcut]
    rfl
  | unclosed hc ha =>
    subst ha
    obtain ⟨body, rfl, hbody⟩ := hc.exists_eq
    have hbyte := byteAt_append_of_lt (c := '/') (by decide) a ('*' :: body)
    have hnext := (byte?_second_eq_some_iff (c := '/') (e := '*') (by decide) (by decide) a
      ('*' :: body)).2 rfl
    have hcut := excerpt_append a ('/' :: '*' :: body) []
    rw [List.append_nil] at hcut ⊢
    rw [lexTurn_of_byteAt hbyte, if_neg (by decide), if_neg (by decide),
      if_neg (by rw [hnext]; decide), if_pos ⟨rfl, hnext⟩,
      excerptFrom_pair (by decide) (by decide), ok_bind, findWord?_starSlash, hbody]
    simp only [Option.map_none, Option.getD_none, length_bytes, byteSize_append]
    rw [hcut]
    rfl

/-- A gap is passed over. -/
theorem run_lexLoop_gap {r gap : List Char} (h : IsGap r gap) (a : List Char) (f : Bool)
    (found : List Placed) :
    (lexLoop (a ++ (gap ++ r))).run ⟨byteSize a, f, found⟩
      = (lexLoop (a ++ (gap ++ r))).run
          ⟨byteSize (a ++ gap), f || gap.contains '\n', found⟩ := by
  induction h generalizing a f with
  | nil => simp
  | @cons item rest hi _ ih =>
    have hturn := lexTurn_gapItem hi a f found
    have hrest := ih (a ++ item) (f || item.contains '\n')
    rw [← List.append_assoc item] at hturn
    rw [run_lexLoop_of_lexTurn hturn, ← byteSize_append]
    simp only [List.append_assoc] at hrest ⊢
    rw [hrest, List.contains_append, Bool.or_assoc]

/-- The kind of a token with its character. -/
def Kind.of (kind : TokenKind) (text : List Char) : Kind :=
  match kind with
  | .ident => .ident
  | .number => .number
  | .str => .str
  | .char => .char
  | .punct => .punct (text.headD '\x00')

/-- A token by its offsets alone. -/
def place (t : Located) : Placed :=
  ⟨.of t.kind t.text, t.start, t.stop, t.opensLine⟩

theorem toNat_of_isNumberChar {c : Char} (h : isNumberChar c = true) : c.toNat < 128 := by
  unfold isNumberChar Char.isAlphanum Char.isAlpha Char.isUpper Char.isLower Char.isDigit at h
  simp only [Bool.or_eq_true, Bool.and_eq_true, decide_eq_true_eq, UInt32.le_iff_toNat_le,
    ge_iff_le] at h
  have hc : c.toNat = c.val.toNat := rfl
  have hz : 'z'.val.toNat = 122 := rfl
  have hZ : 'Z'.val.toNat = 90 := rfl
  have h9 : '9'.val.toNat = 57 := rfl
  rcases h with (h | rfl) | rfl
  · omega
  · decide
  · decide

/-- A word is taken whole. -/
theorem wordEnd_word {p : Char → Bool} (hp : ∀ c, p c = true → isNumberChar c = true)
    {word r : List Char} (hw : ∀ e ∈ word, p e = true) (hr : ∀ e ∈ r.head?, p e = false)
    (a : List Char) :
    wordEnd (bytes (a ++ (word ++ r))) (byteSize a) p = .ok (byteSize a + byteSize word) := by
  rw [wordEnd_append (fun c hc => toNat_of_isNumberChar (hp c hc)),
    (takeWhile_append_of_head hw hr).1]

/-- The first byte of a token that neither a word nor a literal starts with. -/
theorem tokenAt_of_not {s : List Char} {b : Char} (hl : isLetter b = false)
    (hd : b.isDigit = false) (hq : b ≠ '"') (ha : b ≠ '\'') (pos : Nat) :
    tokenAt s pos b = do
      let rest ← excerptFrom s pos
      return (.punct (rest.headD '\x00'), pos + max (rest.headD '\x00').utf8Size 1) := by
  rw [tokenAt, if_neg (by simp [hl]), if_neg (by simp [hd]), if_neg (by simp [hq, ha])]

theorem tokenAt_literal {quote : Char} (hq : quote = '"' ∨ quote = '\'') {w r : List Char}
    (h : LiteralRest quote r w) (a : List Char) :
    tokenAt (a ++ (quote :: w ++ r)) (byteSize a) quote
      = .ok (if quote = '"' then .str else .char, byteSize a + byteSize (quote :: w)) := by
  have hsplit : splitLiteral quote (w ++ r) = (w, r) := by
    rcases hq with rfl | rfl
    · exact h.splitLiteral (by decide) (by decide)
    · exact h.splitLiteral (by decide) (by decide)
  have hl : isLetter quote = false := by rcases hq with rfl | rfl <;> decide
  have hd : quote.isDigit = false := by rcases hq with rfl | rfl <;> decide
  have hend := quotedEnd_append hq a (w ++ r)
  rw [hsplit] at hend
  rw [tokenAt, if_neg (by simp [hl]), if_neg (by simp [hd]), if_pos hq, List.cons_append, hend,
    ok_bind]
  rfl

/-- A token is taken whole, and its first byte starts neither a blank nor a comment. -/
theorem tokenAt_tokenForm {r text : List Char} {kind : TokenKind} (h : TokenForm r kind text)
    (a : List Char) : ∃ b, byteAt (bytes (a ++ (text ++ r))) (byteSize a) = .ok b ∧
      isSpace b = false ∧ (b = '/' → text = ['/'] ∧ opensComment ('/' :: r) = false) ∧
      tokenAt (a ++ (text ++ r)) (byteSize a) b
        = .ok (.of kind text, byteSize a + byteSize text) := by
  cases h with
  | @ident c w hc hw hr =>
    have hn := isNumberChar_of_isIdentChar (isIdentChar_of_isLetter hc)
    have hall : ∀ e ∈ c :: w, isIdentChar e = true := by
      rintro e (_ | ⟨_, he⟩)
      · exact isIdentChar_of_isLetter hc
      · exact hw e he
    refine ⟨c, byteAt_append_of_lt (toNat_of_isNumberChar hn) a (w ++ r),
      isSpace_of_isNumberChar hn, fun h => absurd h (ne_of_isNumberChar hn (by decide)), ?_⟩
    rw [tokenAt, if_pos hc, wordEnd_word (fun _ => isNumberChar_of_isIdentChar) hall hr, ok_bind]
    rfl
  | @number c w hc hw hr =>
    have hn := isNumberChar_of_isDigit hc
    have hall : ∀ e ∈ c :: w, isNumberChar e = true := by
      rintro e (_ | ⟨_, he⟩)
      · exact hn
      · exact hw e he
    refine ⟨c, byteAt_append_of_lt (toNat_of_isNumberChar hn) a (w ++ r),
      isSpace_of_isNumberChar hn, fun h => absurd h (ne_of_isNumberChar hn (by decide)), ?_⟩
    rw [tokenAt, if_neg (by simp [isLetter_of_isDigit hc]), if_pos hc,
      wordEnd_word (fun _ => id) hall hr, ok_bind]
    rfl
  | @str w hw =>
    exact ⟨'"', byteAt_append_of_lt (by decide) a (w ++ r), rfl, fun h => absurd h (by decide),
      tokenAt_literal (.inl rfl) hw a⟩
  | @char w hw =>
    exact ⟨'\'', byteAt_append_of_lt (by decide) a (w ++ r), rfl, fun h => absurd h (by decide),
      tokenAt_literal (.inr rfl) hw a⟩
  | @punct c hl hd hq ha hs ho =>
    obtain ⟨b, hb, hcb⟩ := exists_byteAt_start c a r
    have hrest : excerptFrom (a ++ ([c] ++ r)) (byteSize a) = .ok ([c] ++ r) :=
      excerptFrom_append a _
    have hsize : max c.utf8Size 1 = byteSize [c] := by
      have := c.utf8Size_pos
      rw [byteSize_cons, byteSize_nil]
      omega
    have htoken : ∀ e : Char, isLetter e = false → e.isDigit = false → e ≠ '"' → e ≠ '\'' →
        tokenAt (a ++ ([c] ++ r)) (byteSize a) e
          = .ok (.of .punct [c], byteSize a + byteSize [c]) := by
      intro e hl hd hq ha
      rw [tokenAt_of_not hl hd hq ha, hrest, ok_bind, ← hsize]
      rfl
    refine ⟨b, hb, ?_⟩
    rcases hcb with ⟨-, rfl⟩ | ⟨-, hbig⟩
    · refine ⟨hs, ?_, htoken b hl hd hq ha⟩
      rintro rfl
      exact ⟨rfl, ho⟩
    · -- a byte of 128 or more starts nothing else
      have hne : ∀ e : Char, e.toNat < 128 → b ≠ e := by
        rintro e he rfl
        omega
      have hnot : isNumberChar b = false :=
        Bool.eq_false_iff.2 fun hn => absurd (toNat_of_isNumberChar hn) (by omega)
      have hlb : isLetter b = false := Bool.eq_false_iff.2 fun hn => by
        rw [isNumberChar_of_isIdentChar (isIdentChar_of_isLetter hn)] at hnot
        cases hnot
      have hdb : b.isDigit = false := Bool.eq_false_iff.2 fun hn => by
        rw [isNumberChar_of_isDigit hn] at hnot
        cases hnot
      have hsb : isSpace b = false :=
        Bool.eq_false_iff.2 fun hn => absurd (toNat_of_isSpace hn) (by omega)
      exact ⟨hsb, fun h => absurd h (hne _ (by decide)),
        htoken b hlb hdb (hne _ (by decide)) (hne _ (by decide))⟩

/-- A token is found in one turn. -/
theorem lexTurn_tokenForm {r text : List Char} {kind : TokenKind} (h : TokenForm r kind text)
    (a : List Char) (f : Bool) (found : List Placed) :
    lexTurn (a ++ (text ++ r)) ⟨byteSize a, f, found⟩
      = .ok ⟨byteSize a + byteSize text, false, found ++ [⟨.of kind text, byteSize a,
          byteSize a + byteSize text, f⟩]⟩ := by
  obtain ⟨b, hb, hs, hslash, htoken⟩ := tokenAt_tokenForm h a
  have hn : b ≠ '\n' := by
    rintro rfl
    exact absurd hs (by decide)
  have hnext : ∀ e : Char, e.toNat < 128 → opensComment ['/', e] = true →
      ¬ (b = '/' ∧ byte? (bytes (a ++ (text ++ r))) (byteSize a + 1) = some e) := by
    rintro e he hopens ⟨hbe, hsecond⟩
    obtain ⟨rfl, ho⟩ := hslash hbe
    exact byte?_second_ne he hopens ho a hsecond
  rw [lexTurn_of_byteAt hb, if_neg hn, if_neg (by simp [hs]),
    if_neg (hnext '/' (by decide) rfl), if_neg (hnext '*' (by decide) rfl), htoken]
  rfl

/-- Tokens in a row are found at the offsets at which they stand. -/
theorem run_lexLoop_lawful {first : Bool} {ts : List Token} {tail : List Char}
    (h : Lawful first ts tail) (a : List Char) (found : List Placed) :
    (lexLoop (a ++ (Token.render ts ++ tail))).run ⟨byteSize a, first, found⟩
      = .ok (found ++ (locateFrom (byteSize a) ts).map place) := by
  induction ts generalizing first a found with
  | nil =>
    have hgap := run_lexLoop_gap h a first found
    rw [List.append_nil] at hgap
    rw [Token.render_nil, List.nil_append, hgap, Loop.run_of_left_eq_zero]
    · simp [lexLoop]
    · simp [lexLoop]
  | cons t ts ih =>
    obtain ⟨hfits, hts⟩ := h
    have hgap := run_lexLoop_gap hfits.isGap a first found
    have hturn := lexTurn_tokenForm hfits.form (a ++ t.gap) t.opensLine found
    have hrest := ih hts (a ++ t.gap ++ t.text) (found ++ [place (t.locate
      (byteSize (a ++ t.gap), byteSize (a ++ t.gap) + byteSize t.text))])
    rw [← hfits.opensLine_eq] at hgap
    rw [Token.render_cons, List.append_assoc, List.append_assoc, hgap, ← List.append_assoc,
      run_lexLoop_of_lexTurn hturn]
    rw [byteSize_append, List.append_assoc (a ++ t.gap)] at hrest
    refine Eq.trans hrest ?_
    simp [place, Token.locate, Nat.add_assoc]

/-- The scan finds the tokens of the text and is never stopped by a trap. -/
theorem tokenize_eq (s : List Char) : tokenize s = .ok ((located s).map place) := by
  have hrun := run_lexLoop_lawful (lawful_lexFrom true s) [] []
  have htext : Token.render (lexFrom true s).tokens ++ (lexFrom true s).tail = s :=
    Lexed.text_lex s
  rw [htext] at hrun
  exact hrun

end PawnApi.Bytewise
