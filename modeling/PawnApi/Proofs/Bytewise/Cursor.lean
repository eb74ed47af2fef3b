/-
  PawnApi.Proofs.Bytewise.Cursor

  A cursor in a list of placed tokens.

  A reader (`Read`) takes what it reads from the tokens at a cursor. It may find nothing,
  and it may trap. `balanced` reads a bracket group: it ends at the first place that closes
  the bracket at the cursor (`balanced_of_isLeast`), and where nothing closes that bracket
  the cursor stays (`balanced_of_not_closesAt`). `skipStatement` passes over a statement.
-/
import PawnApi.Proofs.Bytewise.Lexer
import PawnApi.Proofs.Frames
import PawnApi.Proofs.Matching

namespace PawnApi.Bytewise

open PawnApi.Source

namespace Placed

def isPunct (t : Placed) (c : Char) : Bool :=
  t.kind = .punct c

/-- The text of a token, cut out of the text it was found in. -/
def text (t : Placed) (s : List Char) : Checked (List Char) :=
  excerpt s t.start t.stop

theorem isPunct_of_ne {t : Placed} {c e : Char} (h : t.isPunct c = true) (hne : c ≠ e) :
    t.isPunct e = false := by
  simp only [isPunct, decide_eq_true_eq] at h
  simp [isPunct, h, hne]

end Placed

/-- A place in the tokens of a text. -/
structure Cursor where
  source : List Char
  tokens : List Placed
  pos : Nat
  deriving DecidableEq, Repr

namespace Cursor

/-- How many tokens are left. -/
def left (c : Cursor) : Nat :=
  c.tokens.length - c.pos

def peek (c : Cursor) : Option Placed :=
  c.tokens[c.pos]?

def peekNth (c : Cursor) (n : Nat) : Option Placed :=
  c.tokens[c.pos + n]?

/-- The token right before the cursor. -/
def prev (c : Cursor) : Option Placed :=
  if c.pos = 0 then none else c.tokens[c.pos - 1]?

/-- The cursor one token further on. -/
def next (c : Cursor) : Cursor :=
  { c with pos := c.pos + 1 }

/-- The cursor behind all tokens. -/
def atEnd (c : Cursor) : Cursor :=
  { c with pos := max c.pos c.tokens.length }

def peekPunct (c : Cursor) (e : Char) : Bool :=
  c.peek.any (·.isPunct e)

/-- The text of the token at the cursor if that is an identifier. -/
def peekIdent (c : Cursor) : Checked (Option String) :=
  match c.peek with
  | some t =>
    if t.kind = .ident then (t.text c.source).map fun w => some (String.ofList w) else .ok none
  | none => .ok none

/-- Steps over a mark if it is next. -/
def skipPunct (c : Cursor) (e : Char) : Cursor :=
  if c.peekPunct e then c.next else c

/-- A place further on in the same tokens, or the same place. -/
structure Ahead (c c' : Cursor) : Prop where
  source_eq : c'.source = c.source
  tokens_eq : c'.tokens = c.tokens
  le : c.pos ≤ c'.pos

theorem Ahead.refl (c : Cursor) : c.Ahead c := ⟨rfl, rfl, Nat.le_refl _⟩

theorem Ahead.trans {c c' c'' : Cursor} (h : c.Ahead c') (h' : c'.Ahead c'') : c.Ahead c'' :=
  ⟨h'.source_eq.trans h.source_eq, h'.tokens_eq.trans h.tokens_eq, Nat.le_trans h.le h'.le⟩

theorem ahead_next (c : Cursor) : c.Ahead c.next := ⟨rfl, rfl, Nat.le_succ _⟩

theorem ahead_atEnd (c : Cursor) : c.Ahead c.atEnd := ⟨rfl, rfl, Nat.le_max_left _ _⟩

/-- Further on, less is left. -/
theorem left_lt {c c' : Cursor} (hpos : 0 < c.left) (h : c.Ahead c') (hlt : c.pos < c'.pos) :
    c'.left < c.left := by
  simp only [left, h.tokens_eq] at *
  omega

end Cursor

/-! ## Readers -/

/-- Reads something at a cursor and moves it, if what it looks for is there. -/
def Read (α : Type) : Type :=
  Cursor → Checked (Option α × Cursor)

namespace Read

variable {α β : Type}

/-- Goes on with what the first reader finds. -/
def andThen (x : Read α) (f : α → Read β) : Read β := fun c => do
  match ← x c with
  | (some a, c') => f a c'
  | (none, c') => return (none, c')

instance : Monad Read where
  pure a := fun c => .ok (some a, c)
  bind := andThen

/-- Finds nothing. -/
def nothing : Read α := fun c => .ok (none, c)

/-- The cursor itself. -/
def here : Read Cursor := fun c => .ok (some c, c)

/-- A value computed without the cursor. -/
def lift (x : Checked α) : Read α := fun c => x.map fun a => (some a, c)

/-- A value that may be missing. -/
def get (x : Option α) : Read α := fun c => .ok (x, c)

theorem bind_of_some {x : Read α} {f : α → Read β} {c c' : Cursor} {a : α}
    (h : x c = .ok (some a, c')) : (x >>= f) c = f a c' := by
  change andThen x f c = _
  rw [andThen, h, ok_bind]

theorem bind_of_none {x : Read α} {f : α → Read β} {c c' : Cursor}
    (h : x c = .ok (none, c')) : (x >>= f) c = .ok (none, c') := by
  change andThen x f c = _
  rw [andThen, h, ok_bind]
  rfl

theorem bind_eq_some_iff {x : Read α} {f : α → Read β} {c c'' : Cursor} {b : β} :
    (x >>= f) c = .ok (some b, c'') ↔
      ∃ a c', x c = .ok (some a, c') ∧ f a c' = .ok (some b, c'') := by
  change andThen x f c = _ ↔ _
  rw [andThen, bind_eq_ok_iff]
  constructor
  · rintro ⟨⟨found, c'⟩, hx, hf⟩
    cases found with
    | none => cases hf
    | some a => exact ⟨a, c', hx, hf⟩
  · rintro ⟨a, c', hx, hf⟩
    exact ⟨(some a, c'), hx, hf⟩

/-- What is found leaves the cursor in the same tokens, where it was or further on. -/
def Forward (x : Read α) : Prop :=
  ∀ ⦃c c' : Cursor⦄ ⦃a : α⦄, x c = .ok (some a, c') → c.Ahead c'

/-- What is found takes up at least one token. -/
def Strict (x : Read α) : Prop :=
  ∀ ⦃c c' : Cursor⦄ ⦃a : α⦄, x c = .ok (some a, c') → c.Ahead c' ∧ c.pos < c'.pos

theorem Strict.forward {x : Read α} (h : Strict x) : Forward x :=
  fun _ _ _ hx => (h hx).1

theorem forward_pure (a : α) : Forward (pure a : Read α) := by
  intro c c' b h
  cases h
  exact .refl c

theorem forward_nothing : Forward (nothing : Read α) := by
  intro c c' b h
  cases h

theorem forward_here : Forward here := by
  intro c c' b h
  cases h
  exact .refl c

theorem forward_get (x : Option α) : Forward (get x) := by
  intro c c' b h
  cases h
  exact .refl c

theorem forward_lift (x : Checked α) : Forward (lift x) := by
  intro c c' b h
  cases x with
  | error e => cases h
  | ok a =>
    cases h
    exact .refl c

theorem Forward.bind {x : Read α} {f : α → Read β} (hx : Forward x) (hf : ∀ a, Forward (f a)) :
    Forward (x >>= f) := by
  intro c c' b h
  obtain ⟨a, c₁, h₁, h₂⟩ := bind_eq_some_iff.1 h
  exact (hx h₁).trans (hf a h₂)

theorem Forward.bind_strict {x : Read α} {f : α → Read β} (hx : Forward x)
    (hf : ∀ a, Strict (f a)) : Strict (x >>= f) := by
  intro c c' b h
  obtain ⟨a, c₁, h₁, h₂⟩ := bind_eq_some_iff.1 h
  have hle := (hx h₁).le
  obtain ⟨hahead, hlt⟩ := hf a h₂
  exact ⟨(hx h₁).trans hahead, by omega⟩

theorem Strict.bind {x : Read α} {f : α → Read β} (hx : Strict x) (hf : ∀ a, Forward (f a)) :
    Strict (x >>= f) := by
  intro c c' b h
  obtain ⟨a, c₁, h₁, h₂⟩ := bind_eq_some_iff.1 h
  obtain ⟨hahead, hlt⟩ := hx h₁
  have hle := (hf a h₂).le
  exact ⟨hahead.trans (hf a h₂), by omega⟩

end Read

/-- Reads the token at the cursor. -/
def token : Read Placed := fun c =>
  match c.peek with
  | some t => .ok (some t, c.next)
  | none => .ok (none, c)

/-- Reads an identifier. -/
def ident : Read String := fun c =>
  c.peekIdent.map fun
    | some w => (some w, c.next)
    | none => (none, c)

/-- Steps over a word if it is next, and tells whether it was. -/
def eatWord (w : String) : Read Bool := fun c =>
  c.peekIdent.map fun found =>
    if found = some w then (some true, c.next) else (some false, c)

/-- Steps over a mark if it is next, and tells whether it was. -/
def eatPunct (e : Char) : Read Bool := fun c =>
  .ok (some (c.peekPunct e), c.skipPunct e)

theorem strict_token : Read.Strict token := by
  intro c c' t h
  unfold token at h
  split at h <;> cases h
  exact ⟨c.ahead_next, Nat.lt_succ_self _⟩

theorem strict_ident : Read.Strict ident := by
  intro c c' w h
  unfold ident at h
  cases hp : c.peekIdent with
  | error e => rw [hp] at h; cases h
  | ok found =>
    rw [hp] at h
    cases found <;> cases h
    exact ⟨c.ahead_next, Nat.lt_succ_self _⟩

theorem Cursor.ahead_skipPunct (c : Cursor) (e : Char) : c.Ahead (c.skipPunct e) := by
  unfold skipPunct
  split
  · exact c.ahead_next
  · exact .refl c

/-! ## Bracket groups -/

/-- One turn of the search for a closing bracket: the token at `st.1` with `st.2` groups
    open. The result is the place behind the closing bracket and the offset before it. -/
def closingTurn (ts : List Placed) (opn cls : Char) (st : Nat × Nat) :
    Checked (Turn (Nat × Nat) (Option (Nat × Nat))) :=
  match ts[st.1]? with
  | none => .ok (.done none)
  | some t =>
    if t.isPunct opn then .ok (.again (st.1 + 1, st.2 + 1))
    else if t.isPunct cls then do
      let depth ← pred st.2
      return if depth = 0 then .done (some (st.1 + 1, t.start)) else .again (st.1 + 1, depth)
    else .ok (.again (st.1 + 1, st.2))

theorem lt_of_closingTurn {ts : List Placed} {opn cls : Char} {st st' : Nat × Nat}
    (h : closingTurn ts opn cls st = .ok (.again st')) : st'.1 = st.1 + 1 := by
  unfold closingTurn at h
  split at h
  · cases h
  split at h
  · cases h
    rfl
  split at h
  · obtain ⟨depth, -, h'⟩ := bind_eq_ok_iff.1 h
    split at h' <;> cases h'
    rfl
  · cases h
    rfl

def closingLoop (ts : List Placed) (opn cls : Char) :
    Loop (Nat × Nat) (Option (Nat × Nat)) where
  left st := ts.length - st.1
  body := closingTurn ts opn cls
  exit _ := none
  progress := by
    intro st st' hpos h
    have := lt_of_closingTurn h
    omega

/-- Reads a bracket group and gives the offsets between which its inside stands. -/
def balanced (opn cls : Char) : Read (Nat × Nat) := fun c =>
  match c.peek with
  | none => .ok (none, c)
  | some first =>
    if first.isPunct opn then
      ((closingLoop c.tokens opn cls).run (c.pos, 0)).map fun
        | some (pos, stop) => (some (first.stop, stop), { c with pos })
        | none => (none, c)
    else .ok (none, c)

/-- The search counts as `closing?` does. -/
theorem run_closingLoop (ts : List Placed) (opn cls : Char) (i depth : Nat) :
    (closingLoop ts opn cls).run (i, depth + 1) =
      .ok ((closing? (·.isPunct opn) (·.isPunct cls) depth (ts.drop i)).bind fun k =>
        ts[i + k]?.map fun t => (i + k + 1, t.start)) := by
  induction hn : ts.length - i generalizing i depth with
  | zero =>
    rw [Loop.run_of_left_eq_zero (show ts.length - i = 0 from hn), List.drop_eq_nil_of_le (by omega)]
    rfl
  | succ n ih =>
    have hlt : i < ts.length := by omega
    have hpos : 0 < (closingLoop ts opn cls).left (i, depth + 1) := by
      change 0 < ts.length - i
      omega
    -- the tokens behind this one are searched from the next place
    have hshift (found : Option Nat) :
        ((found.map (· + 1)).bind fun k => ts[i + k]?.map fun t => (i + k + 1, t.start)) =
          found.bind fun k => ts[i + 1 + k]?.map fun t => (i + 1 + k + 1, t.start) := by
      cases found with
      | none => rfl
      | some k =>
        have hk : i + (k + 1) = i + 1 + k := by omega
        simp only [Option.map_some, Option.bind_some, hk]
    rw [List.drop_eq_getElem_cons hlt, closing?]
    have hget : ts[i]? = some ts[i] := List.getElem?_eq_getElem hlt
    split
    · rename_i hopn
      have hturn : (closingLoop ts opn cls).body (i, depth + 1) =
          .ok (.again (i + 1, depth + 1 + 1)) := by
        simp [closingLoop, closingTurn, hget, hopn]
      rw [Loop.run_of_again hpos hturn, ih _ _ (by omega), hshift]
    · rename_i hopn
      split
      · rename_i hcls
        split
        · rename_i hd
          subst hd
          have hturn : (closingLoop ts opn cls).body (i, 0 + 1) =
              .ok (.done (some (i + 1, ts[i].start))) := by
            simp [closingLoop, closingTurn, hget, hopn, hcls, pred]
          rw [Loop.run_of_done hpos hturn]
          simp [hget]
        · rename_i hd
          obtain ⟨d, rfl⟩ := Nat.exists_eq_succ_of_ne_zero hd
          have hturn : (closingLoop ts opn cls).body (i, d + 1 + 1) =
              .ok (.again (i + 1, d + 1)) := by
            simp [closingLoop, closingTurn, hget, hopn, hcls, pred]
          rw [Loop.run_of_again hpos hturn, ih _ _ (by omega), hshift]
          rfl
      · rename_i hcls
        have hturn : (closingLoop ts opn cls).body (i, depth + 1) =
            .ok (.again (i + 1, depth + 1)) := by
          simp [closingLoop, closingTurn, hget, hopn, hcls]
        rw [Loop.run_of_again hpos hturn, ih _ _ (by omega), hshift]

/-- At an opening bracket, the group reaches as far as the search says. -/
theorem balanced_of_opens {opn cls : Char} {c : Cursor} {first : Placed}
    (hfirst : c.tokens[c.pos]? = some first) (hopn : first.isPunct opn = true) :
    balanced opn cls c =
      .ok (match (closing? (·.isPunct opn) (·.isPunct cls) 0 (c.tokens.drop (c.pos + 1))).bind
          fun k => c.tokens[c.pos + 1 + k]?.map fun t => (c.pos + 1 + k + 1, t.start) with
        | some (pos, stop) => (some (first.stop, stop), { c with pos })
        | none => (none, c)) := by
  have hpos : 0 < (closingLoop c.tokens opn cls).left (c.pos, 0) := by
    have := (List.getElem?_eq_some_iff.1 hfirst).1
    change 0 < c.tokens.length - c.pos
    omega
  have hrun := run_closingLoop c.tokens opn cls (c.pos + 1) 0
  rw [← Loop.run_of_again (s := (c.pos, 0)) hpos
    (by simp [closingLoop, closingTurn, hfirst, hopn])] at hrun
  rw [balanced, Cursor.peek, hfirst]
  simp only [hopn, if_true, hrun]
  rfl

/-- Elsewhere there is no group. -/
theorem balanced_of_not_opens {opn cls : Char} {c : Cursor}
    (h : ∀ t, c.tokens[c.pos]? = some t → t.isPunct opn = false) :
    balanced opn cls c = .ok (none, c) := by
  unfold balanced
  split
  · rfl
  · rename_i first hfirst
    rw [if_neg (by simp [h first hfirst])]

/-- The first place that closes a bracket is where its group ends. -/
theorem balanced_of_isLeast {opn cls : Char} (hne : opn ≠ cls) {c : Cursor} {j : Nat}
    (h : IsLeast {j | ClosesAt (·.isPunct opn) (·.isPunct cls) c.tokens c.pos j} j) :
    ∃ first closer, c.tokens[c.pos]? = some first ∧ c.tokens[j]? = some closer ∧
      closer.isPunct cls = true ∧
      balanced opn cls c = .ok (some (first.stop, closer.start), { c with pos := j + 1 }) := by
  have hoc : ∀ t : Placed, t.isPunct opn = true → t.isPunct cls = false :=
    fun _ ht => Placed.isPunct_of_ne ht hne
  obtain ⟨first, hfirst, hopn⟩ := h.1.opens
  obtain ⟨closer, hcloser, hcls⟩ := closes_of_isLeast hoc h
  obtain ⟨k, rfl, hk⟩ := (isLeast_closesAt_iff hoc hfirst hopn).1 h
  refine ⟨first, closer, hfirst, hcloser, hcls, ?_⟩
  rw [balanced_of_opens hfirst hopn, hk]
  simp [hcloser]

theorem balanced_of_not_closesAt {opn cls : Char} (hne : opn ≠ cls) {c : Cursor}
    (h : ∀ j, ¬ ClosesAt (·.isPunct opn) (·.isPunct cls) c.tokens c.pos j) :
    balanced opn cls c = .ok (none, c) := by
  have hoc : ∀ t : Placed, t.isPunct opn = true → t.isPunct cls = false :=
    fun _ ht => Placed.isPunct_of_ne ht hne
  by_cases hopens : ∃ t, c.tokens[c.pos]? = some t ∧ t.isPunct opn = true
  · obtain ⟨first, hfirst, hopn⟩ := hopens
    rw [balanced_of_opens hfirst hopn, (closing?_eq_none_iff hoc hfirst hopn).2 h]
    rfl
  · refine balanced_of_not_opens fun t ht => ?_
    by_contra hopn
    exact hopens ⟨t, ht, by simpa using hopn⟩

/-- A group takes up tokens, and a cursor at which there is none stays. -/
theorem of_balanced {opn cls : Char} {c c' : Cursor} {found : Option (Nat × Nat)}
    (h : balanced opn cls c = .ok (found, c')) :
    (found = none ∧ c' = c) ∨ (c.Ahead c' ∧ c.pos < c'.pos) := by
  by_cases hopens : ∃ t, c.tokens[c.pos]? = some t ∧ t.isPunct opn = true
  · obtain ⟨first, hfirst, hopn⟩ := hopens
    rw [balanced_of_opens hfirst hopn] at h
    split at h
    · rename_i pos stop hsome
      obtain ⟨k, -, hk⟩ := Option.bind_eq_some_iff.1 hsome
      obtain ⟨t, -, ht⟩ := Option.map_eq_some_iff.1 hk
      cases ht
      cases h
      refine .inr ⟨⟨rfl, rfl, ?_⟩, ?_⟩ <;> simp only <;> omega
    · cases h
      exact .inl ⟨rfl, rfl⟩
  · rw [balanced_of_not_opens fun t ht => by
      by_contra hopn
      exact hopens ⟨t, ht, by simpa using hopn⟩] at h
    cases h
    exact .inl ⟨rfl, rfl⟩

theorem strict_balanced (opn cls : Char) : Read.Strict (balanced opn cls) := by
  intro c c' span h
  rcases of_balanced h with ⟨hnone, -⟩ | hahead
  · cases hnone
  · exact hahead

/-! ## Groups in a row -/

/-- One turn of reading square-bracket groups in a row. What is gathered from them is up
    to `visit`, which is given the offsets of each inside. -/
def dimensionTurn (visit : List Char → Nat × Nat → Checked (List Char))
    (st : Cursor × List Char) :
    Checked (Turn (Cursor × List Char) (Option (List Char) × Cursor)) :=
  if st.1.peekPunct '[' then do
    match ← balanced '[' ']' st.1 with
    | (some span, c) => do
      let gathered ← visit st.2 span
      return .again (c, gathered)
    | (none, c) => return .done (none, c)
  else return .done (some st.2, st.1)

theorem ahead_of_dimensionTurn {visit : List Char → Nat × Nat → Checked (List Char)}
    {st st' : Cursor × List Char} (h : dimensionTurn visit st = .ok (.again st')) :
    st.1.Ahead st'.1 ∧ st.1.pos < st'.1.pos := by
  unfold dimensionTurn at h
  split at h
  · obtain ⟨⟨found, c⟩, hfound, h'⟩ := bind_eq_ok_iff.1 h
    cases found with
    | none => cases h'
    | some span =>
      obtain ⟨gathered, -, h''⟩ := bind_eq_ok_iff.1 h'
      cases h''
      exact strict_balanced _ _ hfound
  · cases h

def dimensionLoop (visit : List Char → Nat × Nat → Checked (List Char)) :
    Loop (Cursor × List Char) (Option (List Char) × Cursor) where
  left st := st.1.left
  body := dimensionTurn visit
  exit st := (some st.2, st.1)
  progress := by
    intro st st' hpos h
    obtain ⟨hahead, hlt⟩ := ahead_of_dimensionTurn h
    exact Cursor.left_lt hpos hahead hlt

/-- Reads the square-bracket groups at the cursor and gathers something from them. -/
def dimensions (visit : List Char → Nat × Nat → Checked (List Char)) (gathered : List Char) :
    Read (List Char) := fun c =>
  (dimensionLoop visit).run (c, gathered)

theorem forward_dimensions (visit : List Char → Nat × Nat → Checked (List Char))
    (gathered : List Char) : Read.Forward (dimensions visit gathered) := by
  intro c c' w h
  refine Loop.run_induction (l := dimensionLoop visit) (s := (c, gathered))
    (P := fun st => c.Ahead st.1) (Q := fun r => ∀ w c', r = (some w, c') → c.Ahead c')
    (.refl c) ?_ ?_ ?_ h w c' rfl
  · intro st st' _ hst hturn
    exact hst.trans (ahead_of_dimensionTurn hturn).1
  · rintro st r _ hst hturn w c' rfl
    change dimensionTurn visit st = _ at hturn
    unfold dimensionTurn at hturn
    split at hturn
    · obtain ⟨⟨found, c₁⟩, -, h'⟩ := bind_eq_ok_iff.1 hturn
      cases found with
      | none => cases h'
      | some span =>
        obtain ⟨gathered, -, h''⟩ := bind_eq_ok_iff.1 h'
        cases h''
    · cases hturn
      exact hst
  · rintro st _ hst w c' hexit
    cases hexit
    exact hst

/-! ## Statements -/

/-- One turn of skipping a statement. A brace group that is never closed takes all that
    is left. -/
def statementTurn (c : Cursor) : Checked (Turn Cursor Cursor) :=
  match c.peek with
  | none => .ok (.done c)
  | some t =>
    if t.isPunct '{' then do
      let (found, c') ← balanced '{' '}' c
      let after := if found.isNone then { c' with pos := c'.tokens.length } else c'
      return .done (after.skipPunct ';')
    else return if t.isPunct ';' then .done c.next else .again c.next

theorem next_of_statementTurn {c c' : Cursor} (h : statementTurn c = .ok (.again c')) :
    c' = c.next ∧ c.pos < c.tokens.length := by
  unfold statementTurn at h
  split at h
  · cases h
  rename_i t hpeek
  split at h
  · obtain ⟨p, -, h'⟩ := bind_eq_ok_iff.1 h
    cases h'
  · split at h <;> cases h
    exact ⟨rfl, (List.getElem?_eq_some_iff.1 hpeek).1⟩

def statementLoop : Loop Cursor Cursor where
  left := Cursor.left
  body := statementTurn
  exit c := c
  progress := by
    intro c c' hpos h
    obtain ⟨rfl, hlt⟩ := next_of_statementTurn h
    simp only [Cursor.left, Cursor.next]
    omega

/-- Skips one statement. -/
def skipStatement (c : Cursor) : Checked Cursor :=
  statementLoop.run c

/-- Skipping a statement takes up at least one token. -/
theorem of_statementTurn {c c' : Cursor} (h : statementTurn c = .ok (.done c'))
    (hpos : 0 < c.left) : c.Ahead c' ∧ c.pos < c'.pos := by
  unfold statementTurn at h
  split at h
  · rename_i hpeek
    simp only [Cursor.peek, List.getElem?_eq_none_iff] at hpeek
    simp only [Cursor.left] at hpos
    omega
  rename_i t hpeek
  split at h
  · obtain ⟨⟨found, c₁⟩, hfound, h'⟩ := bind_eq_ok_iff.1 h
    cases h'
    have hafter : c.Ahead (if found.isNone then { c₁ with pos := c₁.tokens.length } else c₁) ∧
        c.pos < (if found.isNone then { c₁ with pos := c₁.tokens.length } else c₁).pos := by
      rcases of_balanced hfound with ⟨rfl, rfl⟩ | ⟨hahead, hlt⟩
      · have hlt := (List.getElem?_eq_some_iff.1 hpeek).1
        exact ⟨⟨rfl, rfl, Nat.le_of_lt hlt⟩, hlt⟩
      · split
        · have hlt' := (List.getElem?_eq_some_iff.1 hpeek).1
          rw [← hahead.tokens_eq] at hlt'
          exact ⟨⟨hahead.source_eq, hahead.tokens_eq, Nat.le_of_lt hlt'⟩, hlt'⟩
        · exact ⟨hahead, hlt⟩
    have hskip := Cursor.ahead_skipPunct
      (if found.isNone then { c₁ with pos := c₁.tokens.length } else c₁) ';'
    exact ⟨hafter.1.trans hskip, Nat.lt_of_lt_of_le hafter.2 hskip.le⟩
  · split at h <;> cases h
    exact ⟨c.ahead_next, Nat.lt_succ_self _⟩

theorem of_skipStatement {c c' : Cursor} (hpos : 0 < c.left) (h : skipStatement c = .ok c') :
    c.Ahead c' ∧ c.pos < c'.pos := by
  refine Loop.run_induction (l := statementLoop) (P := c.Ahead)
    (Q := fun st => c.Ahead st ∧ c.pos < st.pos) (.refl c) ?_ ?_ ?_ h
  · intro st st' _ hst hturn
    obtain ⟨rfl, -⟩ := next_of_statementTurn hturn
    exact hst.trans st.ahead_next
  · intro st r hleft hst hturn
    obtain ⟨hahead, hlt⟩ := of_statementTurn hturn hleft
    exact ⟨hst.trans hahead, Nat.lt_of_le_of_lt hst.le hlt⟩
  · intro st hleft hst
    refine ⟨hst, ?_⟩
    change st.left = 0 at hleft
    change c.pos < st.pos
    simp only [Cursor.left, hst.tokens_eq] at hleft hpos
    omega

/-- Skipping a statement never goes back. -/
theorem ahead_of_skipStatement {c c' : Cursor} (h : skipStatement c = .ok c') : c.Ahead c' := by
  by_cases hpos : 0 < c.left
  · exact (of_skipStatement hpos h).1
  · rw [skipStatement, Loop.run_of_left_eq_zero (Nat.eq_zero_of_not_pos hpos)] at h
    cases h
    exact .refl c

end PawnApi.Bytewise
