/-
  PawnApi.Proofs.Spans

  Tokens with the byte offsets at which they stand.

  `slice` is the text between two byte offsets and `located` the tokens of a text with
  their offsets. Lexing is lossless (`lex_lossless`): the gaps and tokens are the text,
  each has its lexical form, and no other cut of the text has these properties. A text
  that is cut out between two tokens has the tokens that lie in it (`located_slice`).
-/
import PawnApi.Proofs.Lexical

namespace PawnApi.Source

/-! ## Bytes -/

@[simp] theorem byteSize_nil : byteSize [] = 0 := rfl

@[simp] theorem byteSize_cons (c : Char) (s : List Char) :
    byteSize (c :: s) = c.utf8Size + byteSize s := rfl

@[simp] theorem byteSize_append (a b : List Char) :
    byteSize (a ++ b) = byteSize a + byteSize b := by
  induction a with
  | nil => simp
  | cons c a ih =>
    rw [List.cons_append, byteSize_cons, byteSize_cons, ih]
    omega

theorem byteSize_pos {s : List Char} (h : s ≠ []) : 0 < byteSize s := by
  cases s with
  | nil => exact absurd rfl h
  | cons c s =>
    have := c.utf8Size_pos
    rw [byteSize_cons]
    omega

/-- The text without its first `n` bytes, for an offset between two characters. -/
def dropBytes : Nat → List Char → List Char
  | 0, s => s
  | _ + 1, [] => []
  | n + 1, c :: s => dropBytes (n + 1 - c.utf8Size) s

/-- The first `n` bytes of a text, for an offset between two characters. -/
def takeBytes : Nat → List Char → List Char
  | 0, _ => []
  | _ + 1, [] => []
  | n + 1, c :: s => c :: takeBytes (n + 1 - c.utf8Size) s

/-- The text between two byte offsets. -/
def slice (s : List Char) (start stop : Nat) : List Char :=
  takeBytes (stop - start) (dropBytes start s)

theorem dropBytes_cons {n : Nat} (hn : 0 < n) (c : Char) (s : List Char) :
    dropBytes n (c :: s) = dropBytes (n - c.utf8Size) s := by
  cases n with
  | zero => omega
  | succ n => rfl

theorem takeBytes_cons {n : Nat} (hn : 0 < n) (c : Char) (s : List Char) :
    takeBytes n (c :: s) = c :: takeBytes (n - c.utf8Size) s := by
  cases n with
  | zero => omega
  | succ n => rfl

theorem dropBytes_append (a b : List Char) : dropBytes (byteSize a) (a ++ b) = b := by
  induction a with
  | nil => cases b <;> rfl
  | cons c a ih =>
    rw [List.cons_append, dropBytes_cons (byteSize_pos (by simp)), byteSize_cons,
      Nat.add_sub_cancel_left, ih]

theorem takeBytes_append (a b : List Char) : takeBytes (byteSize a) (a ++ b) = a := by
  induction a with
  | nil => cases b <;> rfl
  | cons c a ih =>
    rw [List.cons_append, takeBytes_cons (byteSize_pos (by simp)), byteSize_cons,
      Nat.add_sub_cancel_left, ih]

/-- A part of a text lies between the offsets at which it starts and ends. -/
theorem slice_append (a b c : List Char) :
    slice (a ++ (b ++ c)) (byteSize a) (byteSize a + byteSize b) = b := by
  rw [slice, dropBytes_append, Nat.add_sub_cancel_left, takeBytes_append]

/-! ## Tokens in their places -/

/-- A token with the byte offsets at which it starts and ends. -/
structure Located where
  kind : TokenKind
  text : List Char
  start : Nat
  stop : Nat
  /-- No other token precedes this one on its line. -/
  opensLine : Bool
  deriving DecidableEq, Repr

namespace Located

/-- The token in a text that starts `n` bytes earlier. -/
def move (n : Nat) (t : Located) : Located :=
  { t with start := t.start + n, stop := t.stop + n }

/-- The token at the start of a line. -/
def opening (t : Located) : Located :=
  { t with opensLine := true }

end Located

def Token.locate (t : Token) (span : Nat × Nat) : Located :=
  ⟨t.kind, t.text, span.1, span.2, t.opensLine⟩

/-- Tokens with their offsets, if the gap before the first of them starts at `n`. -/
def locateFrom (n : Nat) (ts : List Token) : List Located :=
  List.zipWith Token.locate ts (offsetsFrom n ts)

/-- The tokens of a text with their offsets. -/
def located (s : List Char) : List Located :=
  locateFrom 0 (tokens s)

@[simp] theorem locateFrom_nil (n : Nat) : locateFrom n [] = [] := rfl

@[simp] theorem locateFrom_cons (n : Nat) (t : Token) (ts : List Token) :
    locateFrom n (t :: ts)
      = ⟨t.kind, t.text, n + byteSize t.gap, n + byteSize t.gap + byteSize t.text, t.opensLine⟩
        :: locateFrom (n + byteSize t.gap + byteSize t.text) ts := rfl

theorem locateFrom_append (n : Nat) (ts us : List Token) :
    locateFrom n (ts ++ us)
      = locateFrom n ts ++ locateFrom (n + byteSize (Token.render ts)) us := by
  induction ts generalizing n with
  | nil => simp
  | cons t ts ih => simp [ih, Nat.add_assoc]

@[simp] theorem length_locateFrom (n : Nat) (ts : List Token) :
    (locateFrom n ts).length = ts.length := by
  induction ts generalizing n with
  | nil => rfl
  | cons t ts ih => simp [ih]

theorem map_move_locateFrom (n k : Nat) (ts : List Token) :
    (locateFrom n ts).map (Located.move k) = locateFrom (n + k) ts := by
  induction ts generalizing n with
  | nil => rfl
  | cons t ts ih =>
    have h₁ : n + byteSize t.gap + k = n + k + byteSize t.gap := by omega
    have h₂ : n + byteSize t.gap + byteSize t.text + k
        = n + k + byteSize t.gap + byteSize t.text := by omega
    simp only [locateFrom_cons, List.map_cons, ih, Located.move, h₁, h₂]

/-- The place of each token: behind the tokens before it and its own gap. -/
theorem getElem?_locateFrom (n : Nat) (ts : List Token) (k : Nat) :
    (locateFrom n ts)[k]? = ts[k]?.map fun t =>
      t.locate (n + byteSize (Token.render (ts.take k) ++ t.gap),
        n + byteSize (Token.render (ts.take (k + 1)))) := by
  induction ts generalizing n k with
  | nil => rfl
  | cons u us ih =>
    cases k with
    | zero => simp [Token.locate, Nat.add_assoc]
    | succ k =>
      rw [locateFrom_cons, List.getElem?_cons_succ, ih, List.getElem?_cons_succ]
      simp [Nat.add_assoc]

/-- A token with the offsets that the text before it and its own text give it. -/
theorem exists_of_mem_locateFrom {n : Nat} {ts : List Token} {x : Located}
    (h : x ∈ locateFrom n ts) :
    ∃ lead t rest, ts = lead ++ t :: rest ∧
      x = t.locate (n + byteSize (Token.render lead ++ t.gap),
        n + byteSize (Token.render lead ++ t.gap) + byteSize t.text) := by
  obtain ⟨k, hk⟩ := List.mem_iff_getElem?.1 h
  rw [getElem?_locateFrom, Option.map_eq_some_iff] at hk
  obtain ⟨t, ht, rfl⟩ := hk
  obtain ⟨hlt, ht'⟩ := List.getElem?_eq_some_iff.1 ht
  refine ⟨ts.take k, t, ts.drop (k + 1), ?_, ?_⟩
  · rw [← ht', List.getElem_cons_drop, List.take_append_drop]
  · rw [← List.take_append_getElem hlt, ht']
    simp [Nat.add_assoc]

theorem le_start_of_mem_locateFrom {n : Nat} {ts : List Token} {x : Located}
    (h : x ∈ locateFrom n ts) : n ≤ x.start := by
  obtain ⟨lead, t, rest, -, rfl⟩ := exists_of_mem_locateFrom h
  exact Nat.le_add_right _ _

/-- Tokens stand one behind the other. -/
theorem pairwise_locateFrom (n : Nat) (ts : List Token) :
    (locateFrom n ts).Pairwise fun t u => t.stop ≤ u.start := by
  induction ts generalizing n with
  | nil => exact .nil
  | cons t ts ih =>
    rw [locateFrom_cons]
    exact .cons (fun u hu => le_start_of_mem_locateFrom hu) (ih _)

/-! ## Lossless lexing -/

/-- Tokens and the gap behind them as a lossless reading of a text. -/
structure Lexed.Lossless (l : Lexed) (s : List Char) : Prop where
  /-- The gaps and the tokens in order are the text. -/
  text_eq : l.text = s
  /-- Each token has its lexical form in front of what follows, stands behind a gap, and
      opens its line if it is the first one or a line feed is in that gap. -/
  fits : ∀ lead t rest, l.tokens = lead ++ t :: rest →
    t.Fits lead.isEmpty (Token.render rest ++ l.tail)
  /-- Behind the last token there is a gap, which alone may end with an unclosed comment. -/
  isGap_tail : IsGap [] l.tail

theorem Lexed.lossless_iff {l : Lexed} {s : List Char} : l.Lossless s ↔ lex s = l := by
  rw [lex, lexFrom_eq_iff, lawful_iff]
  constructor
  · rintro ⟨htext, hfits, htail⟩
    exact ⟨htext, hfits, htail⟩
  · rintro ⟨htext, hfits, htail⟩
    exact ⟨htext, hfits, htail⟩

/-- The text of a token is what stands between its offsets. -/
theorem slice_of_mem_located {s : List Char} {x : Located} (h : x ∈ located s) :
    x.start < x.stop ∧ x.stop ≤ byteSize s ∧ slice s x.start x.stop = x.text := by
  obtain ⟨lead, t, rest, htokens, rfl⟩ := exists_of_mem_locateFrom h
  have hfits := (Lexed.lossless_iff.2 rfl).fits lead t rest htokens
  have hpos := byteSize_pos hfits.form.ne_nil
  have hs : Token.render lead ++ t.gap ++ (t.text ++ (Token.render rest ++ (lex s).tail)) = s := by
    have htext := Lexed.text_lex s
    rw [Lexed.text, show (lex s).tokens = lead ++ t :: rest from htokens] at htext
    simpa using htext
  have hslice := slice_append (Token.render lead ++ t.gap) t.text
    (Token.render rest ++ (lex s).tail)
  have hsize := congrArg byteSize hs
  rw [hs] at hslice
  simp only [byteSize_append] at hsize
  refine ⟨?_, ?_, ?_⟩
  · simp only [Token.locate]
    omega
  · simp only [Token.locate, byteSize_append]
    omega
  · simpa [Token.locate] using hslice

/-- **Lossless lexing.** The gaps and tokens of a text are the text again, each gap is made
    of blanks and comments, each token has the form of its kind and reaches as far as it
    can, and a token opens its line exactly if it is the first one or a line feed stands
    in the gap before it. No other cut of the text has these properties. The tokens take
    up disjoint spans of bytes in increasing order, none of them empty. -/
theorem lex_lossless (s : List Char) :
    (lex s).Lossless s ∧ (∀ l : Lexed, l.Lossless s → l = lex s) ∧
      (located s).Pairwise (fun t u => t.stop ≤ u.start) ∧
      ∀ t ∈ located s, t.start < t.stop ∧ t.stop ≤ byteSize s ∧ slice s t.start t.stop = t.text :=
  ⟨Lexed.lossless_iff.2 rfl, fun _ hl => (Lexed.lossless_iff.1 hl).symm,
    pairwise_locateFrom 0 (tokens s), fun _ ht => slice_of_mem_located ht⟩

/-! ## Cutting out tokens -/

/-- An offset in the gap before token `i`: where the token starts, or where the token
    before it ends and, if there is none, the text starts. -/
def EdgeBefore (ts : List Located) (i p : Nat) : Prop :=
  (∃ t, ts[i]? = some t ∧ p = t.start) ∨ (i = 0 ∧ p = 0) ∨
    ∃ k t, i = k + 1 ∧ ts[k]? = some t ∧ p = t.stop

/-- An offset in the gap behind token `j`: where the token ends, or where the next one
    starts. -/
def EdgeBehind (ts : List Located) (j q : Nat) : Prop :=
  (∃ t, ts[j]? = some t ∧ q = t.stop) ∨ ∃ t, ts[j + 1]? = some t ∧ q = t.start

/-- Tokens that are cut out are read as the tokens they were, with or without the gaps at
    either end. -/
theorem lex_cut {s : List Char} {lead us rest : List Token} {t : Token}
    (h : tokens s = lead ++ (t :: us ++ rest)) {gap tail : List Char} (hg : gap = [] ∨ gap = t.gap)
    (ht : tail = [] ∨ ∃ r rs, rest = r :: rs ∧ tail = r.gap) :
    lex (gap ++ (t.text ++ (Token.render us ++ tail)))
      = ⟨{ t with gap := gap, opensLine := true } :: us, tail⟩ := by
  have hlaw : Lawful true (lead ++ (t :: us ++ rest)) (lex s).tail := by
    rw [← h]
    exact lawful_lexFrom true s
  have hmid := hlaw.of_append
  -- the gap that is kept at the end is one, also with nothing behind it
  have htail : tail <+: Token.render rest ++ (lex s).tail ∧ IsGap [] tail := by
    rcases ht with rfl | ⟨r, rs, rfl, rfl⟩
    · exact ⟨List.nil_prefix, .nil⟩
    · refine ⟨?_, hmid.of_append.1.isGap.of_isPrefix List.nil_prefix⟩
      rw [Token.render_cons, List.append_assoc, List.append_assoc]
      exact List.prefix_append _ _
  obtain ⟨hfits, hus⟩ := hmid.cut htail.1 htail.2
  rw [lex, lexFrom_eq_iff]
  refine ⟨by simp [Lexed.text], ⟨?_, hfits.form, by simp⟩, hus⟩
  rcases hg with rfl | rfl
  · exact .nil
  · exact hfits.isGap

/-- The tokens from `i` through `j` as a part of a list. -/
theorem exists_eq_append {ts : List Token} {i j : Nat} (hij : i ≤ j) (hj : j < ts.length) :
    ∃ lead t us rest, ts = lead ++ (t :: us ++ rest) ∧ lead.length = i ∧
      (t :: us).length = j + 1 - i := by
  obtain ⟨t, us, htail⟩ : ∃ t us, ts.drop i = t :: us := by
    apply List.exists_cons_of_length_pos
    rw [List.length_drop]
    omega
  have hlen := congrArg List.length htail
  rw [List.length_drop, List.length_cons] at hlen
  refine ⟨ts.take i, t, us.take (j - i), us.drop (j - i), ?_, ?_, ?_⟩
  · rw [List.cons_append, List.take_append_drop, ← htail, List.take_append_drop]
  · rw [List.length_take]
    omega
  · rw [List.length_cons, List.length_take]
    omega

/-- An offset before a token splits its gap at one of its ends. -/
theorem EdgeBefore.exists_gap {lead rest : List Token} {t : Token} {p : Nat}
    (h : EdgeBefore (locateFrom 0 (lead ++ t :: rest)) lead.length p) :
    ∃ front gap, (gap = [] ∨ gap = t.gap) ∧ t.gap = front ++ gap ∧
      p = byteSize (Token.render lead ++ front) := by
  rcases h with ⟨x, hx, rfl⟩ | ⟨hl, rfl⟩ | ⟨k, x, hl, hx, rfl⟩
  · rw [getElem?_locateFrom, List.getElem?_append_right (Nat.le_refl _), Nat.sub_self,
      List.getElem?_cons_zero, Option.map_some] at hx
    exact ⟨t.gap, [], Or.inl rfl, by simp, by simp [← Option.some.inj hx, Token.locate]⟩
  · rw [List.length_eq_zero_iff.1 hl]
    exact ⟨[], t.gap, Or.inr rfl, rfl, rfl⟩
  · rw [getElem?_locateFrom, Option.map_eq_some_iff] at hx
    obtain ⟨u, -, rfl⟩ := hx
    exact ⟨[], t.gap, Or.inr rfl, rfl, by simp [Token.locate, ← hl]⟩

/-- An offset behind a token takes the gap before the next one or leaves it. -/
theorem EdgeBehind.exists_gap {ts rest : List Token} {j q : Nat} (hj : ts.length = j + 1)
    (h : EdgeBehind (locateFrom 0 (ts ++ rest)) j q) :
    ∃ tail, (tail = [] ∨ ∃ r rs, rest = r :: rs ∧ tail = r.gap) ∧
      q = byteSize (Token.render ts ++ tail) := by
  rcases h with ⟨x, hx, rfl⟩ | ⟨x, hx, rfl⟩
  · rw [getElem?_locateFrom, Option.map_eq_some_iff] at hx
    obtain ⟨t, -, rfl⟩ := hx
    exact ⟨[], Or.inl rfl, by simp [Token.locate, ← hj]⟩
  · rw [getElem?_locateFrom, Option.map_eq_some_iff] at hx
    obtain ⟨r, hr, rfl⟩ := hx
    rw [← hj, List.getElem?_append_right (Nat.le_refl _), Nat.sub_self] at hr
    cases rest with
    | nil => simp at hr
    | cons u rs =>
      obtain rfl : u = r := by simpa using hr
      exact ⟨u.gap, Or.inr ⟨u, rs, rfl, rfl⟩, by simp [Token.locate, ← hj]⟩

/-- A part of the text between two gaps has the tokens of that part. -/
theorem located_cut {s front gap tail : List Char} {lead us rest : List Token} {t : Token}
    (h : tokens s = lead ++ (t :: us ++ rest)) (hg : gap = [] ∨ gap = t.gap)
    (hf : t.gap = front ++ gap) (ht : tail = [] ∨ ∃ r rs, rest = r :: rs ∧ tail = r.gap) :
    (located (slice s (byteSize (Token.render lead ++ front))
        (byteSize (Token.render (lead ++ t :: us) ++ tail)))).map
          (Located.move (byteSize (Token.render lead ++ front)))
      = (locateFrom (byteSize (Token.render lead)) (t :: us)).modifyHead Located.opening := by
  -- what is cut out, between what stands before it and behind it
  obtain ⟨back, hback⟩ : ∃ back, Token.render rest ++ (lex s).tail = tail ++ back := by
    rcases ht with rfl | ⟨r, rs, rfl, rfl⟩
    · exact ⟨_, rfl⟩
    · exact ⟨r.text ++ Token.render rs ++ (lex s).tail, by simp⟩
  have hs : Token.render lead ++ front
      ++ (gap ++ (t.text ++ (Token.render us ++ tail)) ++ back) = s := by
    have htext := Lexed.text_lex s
    rw [Lexed.text, show (lex s).tokens = _ from h, Token.render_append, Token.render_append,
      Token.render_cons, List.append_assoc, List.append_assoc, hback, hf] at htext
    simpa using htext
  have hstop : byteSize (Token.render lead ++ front)
      + byteSize (gap ++ (t.text ++ (Token.render us ++ tail)))
      = byteSize (Token.render (lead ++ t :: us) ++ tail) := by
    rw [Token.render_append, Token.render_cons, hf]
    simp only [byteSize_append]
    omega
  have hslice := slice_append (Token.render lead ++ front)
    (gap ++ (t.text ++ (Token.render us ++ tail))) back
  rw [hs, hstop] at hslice
  have htokens := congrArg Lexed.tokens (lex_cut h hg ht)
  rw [hslice, located, tokens, htokens, map_move_locateFrom]
  simp [hf, Located.opening, Nat.add_assoc]

/-- **Cut-outs.** A text that is cut out of another between the gaps before token `i` and
    behind token `j` has the tokens from `i` through `j`, moved by the offset of the cut.
    Only the first of them may come to open a line that it did not open before. -/
theorem located_slice {s : List Char} {i j p q : Nat} (hij : i ≤ j) (hj : j < (tokens s).length)
    (hp : EdgeBefore (located s) i p) (hq : EdgeBehind (located s) j q) :
    (located (slice s p q)).map (Located.move p)
      = (((located s).drop i).take (j + 1 - i)).modifyHead Located.opening := by
  obtain ⟨lead, t, us, rest, hts, rfl, hmid⟩ := exists_eq_append hij hj
  rw [located, hts, List.cons_append] at hp
  rw [located, hts, ← List.append_assoc] at hq
  obtain ⟨front, gap, hgap, hfront, rfl⟩ := hp.exists_gap
  obtain ⟨tail, htail, rfl⟩ := hq.exists_gap (by rw [List.length_append]; omega)
  have hcut : ((located s).drop lead.length).take (j + 1 - lead.length)
      = locateFrom (byteSize (Token.render lead)) (t :: us) := by
    rw [located, hts, locateFrom_append, locateFrom_append,
      List.drop_left' (length_locateFrom 0 lead),
      List.take_left' ((length_locateFrom _ _).trans hmid), Nat.zero_add]
  rw [hcut]
  exact located_cut hts hgap hfront htail

/-- A slash and a literal that its line cuts off, taken out with the gaps around them. -/
theorem located_slice_literal :
    (located (slice "é / 'a\n/* b */ c".toList 2 16)).map (Located.move 2)
      = [⟨.punct, ['/'], 3, 4, true⟩, ⟨.char, ['\'', 'a'], 5, 7, false⟩] := by
  have hbefore : EdgeBefore (located "é / 'a\n/* b */ c".toList) 1 2 :=
    .inr (.inr ⟨0, ⟨.punct, ['é'], 0, 2, true⟩, rfl, by decide +kernel, rfl⟩)
  have hbehind : EdgeBehind (located "é / 'a\n/* b */ c".toList) 2 16 :=
    .inr ⟨⟨.ident, ['c'], 16, 17, true⟩, by decide +kernel, rfl⟩
  rw [located_slice (by decide) (by decide +kernel) hbefore hbehind]
  decide +kernel

end PawnApi.Source
