/-
  PawnApi.Proofs.Bytewise.Basic

  Readers that keep byte offsets, and what they can trip over.

  Such a reader looks at a text byte by byte and cuts pieces out of it between two
  offsets. It stops at a `Trap` if an offset is not a place between two characters
  (`excerpt`), if a byte is asked for past the end, or if one is taken from zero. A
  `Loop` carries the proof that each of its turns leaves less to read, so that it can be
  run to its end and takes no more turns than there is to read (`Loop.turns_le`).
-/
import PawnApi.Proofs.Encoding
import PawnApi.Proofs.Spans

namespace PawnApi.Bytewise

open PawnApi.Source

/-- What stops a reader. -/
inductive Trap where
  /-- A text is cut between these offsets, but one of them is no place between two
      characters or they stand the wrong way round. -/
  | slice (start stop : Nat)
  /-- Nothing stands at this place. -/
  | index (i : Nat)
  /-- One is taken from zero. -/
  | underflow
  deriving DecidableEq, Repr

/-- A result, unless a trap was met. -/
abbrev Checked := Except Trap

theorem ok_bind {α β : Type} (a : α) (f : α → Checked β) :
    (Except.ok a : Checked α) >>= f = f a := rfl

theorem pure_eq_ok {α : Type} (a : α) : (pure a : Checked α) = .ok a := rfl

theorem bind_eq_ok_iff {α β : Type} {x : Checked α} {f : α → Checked β} {b : β} :
    x >>= f = .ok b ↔ ∃ a, x = .ok a ∧ f a = .ok b := by
  cases x with
  | error e =>
    constructor
    · intro h
      cases h
    · rintro ⟨a, h, -⟩
      cases h
  | ok a => simp [ok_bind]

/-- What traps for no member of a list gives a list of results. -/
theorem mapM_eq_ok {α β : Type} {f : α → Checked β} {g : α → β} {l : List α}
    (h : ∀ a ∈ l, f a = .ok (g a)) : l.mapM f = .ok (l.map g) := by
  induction l with
  | nil => rfl
  | cons a l ih =>
    rw [List.mapM_cons, h a List.mem_cons_self, ok_bind,
      ih fun b hb => h b (List.mem_cons_of_mem a hb)]
    rfl

/-- One less, for a counter that is not zero. -/
def pred : Nat → Checked Nat
  | 0 => .error .underflow
  | n + 1 => .ok n

theorem exists_pred_iff {n : Nat} : (∃ m, pred n = .ok m) ↔ 0 < n := by
  cases n with
  | zero => simp [pred]
  | succ n => simp [pred]

/-! ## Bytes -/

/-- The bytes of a text. -/
def bytes (s : List Char) : List UInt8 :=
  Text.Utf8.encode (String.ofList s)

/-- The byte at an offset, as the character with that number. -/
def byte? (bs : List UInt8) (i : Nat) : Option Char :=
  bs[i]?.map Char.ofUInt8

/-- The byte at an offset that has one. -/
def byteAt (bs : List UInt8) (i : Nat) : Checked Char :=
  match byte? bs i with
  | some b => .ok b
  | none => .error (.index i)

@[simp] theorem bytes_nil : bytes [] = [] := by
  rw [bytes, Text.Utf8.encode_ofList, List.flatMap_nil]

theorem bytes_cons (c : Char) (s : List Char) :
    bytes (c :: s) = String.utf8EncodeChar c ++ bytes s := by
  rw [bytes, bytes, Text.Utf8.encode_ofList, Text.Utf8.encode_ofList, List.flatMap_cons]

@[simp] theorem length_bytes (s : List Char) : (bytes s).length = byteSize s := by
  induction s with
  | nil => rw [bytes_nil]; rfl
  | cons c s ih =>
    rw [bytes_cons, List.length_append, String.length_utf8EncodeChar, ih, byteSize_cons]

theorem bytes_append (a b : List Char) : bytes (a ++ b) = bytes a ++ bytes b := by
  simp only [bytes, Text.Utf8.encode_ofList, List.flatMap_append]

theorem drop_bytes_append (a b : List Char) : (bytes (a ++ b)).drop (byteSize a) = bytes b := by
  rw [bytes_append, ← length_bytes a, List.drop_left]

theorem byte?_append (a b : List Char) (k : Nat) :
    byte? (bytes (a ++ b)) (byteSize a + k) = byte? (bytes b) k := by
  rw [byte?, byte?, bytes_append, ← length_bytes a,
    List.getElem?_append_right (Nat.le_add_right _ _), Nat.add_sub_cancel_left]

theorem byte?_cons_of_lt {c : Char} (h : c.toNat < 128) (s : List Char) :
    byte? (bytes (c :: s)) 0 = some c := by
  rw [byte?, bytes_cons, Text.Utf8.encodeChar_of_lt h]
  exact congrArg some (Text.Utf8.ofUInt8_toUInt8 h)

/-- A character below 128 is found at its offset. -/
theorem byteAt_append_of_lt {c : Char} (h : c.toNat < 128) (a b : List Char) :
    byteAt (bytes (a ++ c :: b)) (byteSize a) = .ok c := by
  rw [byteAt, ← Nat.add_zero (byteSize a), byte?_append, byte?_cons_of_lt h]

/-- Anywhere inside another character a byte of 128 or more is found. -/
theorem exists_byteAt_append {c : Char} (h : 128 ≤ c.toNat) (a b : List Char) {k : Nat}
    (hk : k < c.utf8Size) :
    ∃ e : Char, byteAt (bytes (a ++ c :: b)) (byteSize a + k) = .ok e ∧ 128 ≤ e.toNat := by
  have hlt : k < (String.utf8EncodeChar c).length := by rwa [String.length_utf8EncodeChar]
  refine ⟨Char.ofUInt8 (String.utf8EncodeChar c)[k], ?_, ?_⟩
  · rw [byteAt, byte?_append, byte?, bytes_cons, List.getElem?_append_left hlt,
      List.getElem?_eq_getElem hlt]
    rfl
  · rw [Text.Utf8.toNat_ofUInt8]
    exact Text.Utf8.le_of_mem_encodeChar h (List.getElem_mem hlt)

/-- The byte at which a character starts is the character, or both are 128 or more. -/
theorem exists_byteAt_start (c : Char) (a b : List Char) :
    ∃ e : Char, byteAt (bytes (a ++ c :: b)) (byteSize a) = .ok e ∧
      (c.toNat < 128 ∧ e = c ∨ 128 ≤ c.toNat ∧ 128 ≤ e.toNat) := by
  rcases Nat.lt_or_ge c.toNat 128 with hc | hc
  · exact ⟨c, byteAt_append_of_lt hc a b, .inl ⟨hc, rfl⟩⟩
  · obtain ⟨e, he, hbig⟩ := exists_byteAt_append hc a b c.utf8Size_pos
    exact ⟨e, he, .inr ⟨hc, hbig⟩⟩

theorem lt_length_of_byteAt {bs : List UInt8} {i : Nat} {c : Char} (h : byteAt bs i = .ok c) :
    i < bs.length := by
  by_contra hge
  rw [byteAt, byte?, List.getElem?_eq_none (Nat.le_of_not_lt hge)] at h
  cases h

theorem exists_byteAt_iff {bs : List UInt8} {i : Nat} :
    (∃ c, byteAt bs i = .ok c) ↔ i < bs.length := by
  constructor
  · rintro ⟨c, hc⟩
    exact lt_length_of_byteAt hc
  · intro hi
    exact ⟨Char.ofUInt8 bs[i], by rw [byteAt, byte?, List.getElem?_eq_getElem hi]; rfl⟩

/-- The first byte of a text is `e` exactly if its first character is. -/
theorem byte?_zero_eq_some_iff {e : Char} (he : e.toNat < 128) (s : List Char) :
    byte? (bytes s) 0 = some e ↔ s.head? = some e := by
  cases s with
  | nil => simp [byte?]
  | cons c s =>
    rcases Nat.lt_or_ge c.toNat 128 with hc | hc
    · rw [byte?_cons_of_lt hc, List.head?_cons]
    · obtain ⟨b, hb, hbig⟩ := exists_byteAt_append hc [] s c.utf8Size_pos
      have hbyte : byte? (bytes (c :: s)) 0 = some b := by
        rw [byteAt] at hb
        split at hb
        · rename_i b' hb'
          rw [← Except.ok.inj hb]
          exact hb'
        · cases hb
      rw [hbyte, List.head?_cons, Option.some.injEq, Option.some.injEq]
      constructor
      · rintro rfl
        omega
      · rintro rfl
        omega

/-! ## Places between characters -/

/-- Whether a character starts at an offset, or the text ends there. -/
def IsBoundary (s : List Char) (i : Nat) : Prop :=
  String.Pos.Raw.IsValid (String.ofList s) ⟨i⟩

instance (s : List Char) (i : Nat) : Decidable (IsBoundary s i) :=
  inferInstanceAs (Decidable (String.Pos.Raw.IsValid (String.ofList s) ⟨i⟩))

theorem utf8ByteSize_ofList (s : List Char) : (String.ofList s).utf8ByteSize = byteSize s := by
  induction s with
  | nil => rfl
  | cons c s ih =>
    rw [String.ofList_cons, String.utf8ByteSize_append, ih, String.utf8ByteSize_singleton,
      byteSize_cons]

theorem isBoundary_iff {s : List Char} {i : Nat} :
    IsBoundary s i ↔ ∃ a b, s = a ++ b ∧ i = byteSize a := by
  rw [IsBoundary, String.Pos.Raw.isValid_ofList]
  constructor
  · rintro ⟨n, hn⟩
    exact ⟨s.take n, s.drop n, (List.take_append_drop n s).symm, by
      rw [← utf8ByteSize_ofList]; exact hn⟩
  · rintro ⟨a, b, rfl, rfl⟩
    exact ⟨a.length, by rw [List.take_left, utf8ByteSize_ofList]⟩

theorem isBoundary_append (a b : List Char) : IsBoundary (a ++ b) (byteSize a) :=
  isBoundary_iff.2 ⟨a, b, rfl, rfl⟩

/-- The text between two offsets, both of them places between characters and in order. -/
def excerpt (s : List Char) (start stop : Nat) : Checked (List Char) :=
  if start ≤ stop ∧ IsBoundary s start ∧ IsBoundary s stop then .ok (slice s start stop)
  else .error (.slice start stop)

/-- The text from an offset on. -/
def excerptFrom (s : List Char) (start : Nat) : Checked (List Char) :=
  excerpt s start (bytes s).length

theorem excerpt_append (a b c : List Char) :
    excerpt (a ++ (b ++ c)) (byteSize a) (byteSize a + byteSize b) = .ok b := by
  have hstop : IsBoundary (a ++ (b ++ c)) (byteSize a + byteSize b) := by
    rw [← List.append_assoc, ← byteSize_append]
    exact isBoundary_append _ _
  rw [excerpt, if_pos ⟨Nat.le_add_right _ _, isBoundary_append _ _, hstop⟩, slice_append]

/-- A text is cut exactly at places of its own that are in order. -/
theorem exists_excerpt_iff {s : List Char} {start stop : Nat} :
    (∃ t, excerpt s start stop = .ok t) ↔
      start ≤ stop ∧ stop ≤ (bytes s).length ∧ IsBoundary s start ∧ IsBoundary s stop := by
  rw [excerpt]
  split
  · rename_i hcut
    obtain ⟨a, b, hs, hstop⟩ := isBoundary_iff.1 hcut.2.2
    have hle : stop ≤ (bytes s).length := by
      rw [length_bytes, hs, byteSize_append]
      omega
    exact iff_of_true ⟨_, rfl⟩ ⟨hcut.1, hle, hcut.2⟩
  · rename_i hcut
    refine iff_of_false ?_ fun h => hcut ⟨h.1, h.2.2⟩
    rintro ⟨t, ht⟩
    cases ht

theorem excerptFrom_append (a b : List Char) :
    excerptFrom (a ++ b) (byteSize a) = .ok b := by
  have h := excerpt_append a b []
  rw [List.append_nil, ← byteSize_append] at h
  rw [excerptFrom, length_bytes, h]

/-- What is cut out is a part of the text, and it lies between the two offsets. -/
theorem excerpt_eq_ok_iff {s t : List Char} {start stop : Nat} :
    excerpt s start stop = .ok t ↔
      ∃ a c, s = a ++ (t ++ c) ∧ start = byteSize a ∧ stop = byteSize a + byteSize t := by
  constructor
  · intro h
    rw [excerpt] at h
    split at h
    · rename_i hcut
      obtain ⟨a, b, rfl, rfl⟩ := isBoundary_iff.1 hcut.2.1
      obtain ⟨a', b', heq, rfl⟩ := isBoundary_iff.1 hcut.2.2
      -- the shorter of the two fronts is a part of the longer one
      obtain ⟨m, rfl⟩ : ∃ m, a' = a ++ m := by
        rcases List.append_eq_append_iff.1 heq with ⟨m, rfl, -⟩ | ⟨m, rfl, -⟩
        · exact ⟨m, rfl⟩
        · have hm : m = [] := by
            by_contra hne
            have := byteSize_pos hne
            have := hcut.1
            rw [byteSize_append] at this
            omega
          subst hm
          exact ⟨[], by simp⟩
      rw [List.append_assoc] at heq
      obtain rfl := List.append_cancel_left heq
      rw [byteSize_append, slice_append, Except.ok.injEq] at h
      subst h
      exact ⟨a, b', rfl, rfl, byteSize_append a m⟩
    · cases h
  · rintro ⟨a, c, rfl, rfl, rfl⟩
    exact excerpt_append a t c

/-! ## Searching -/

/-- The offset of the first place where a word stands. -/
def findWord? (w : List Char) : List Char → Option Nat
  | [] => if w.isPrefixOf [] then some 0 else none
  | c :: s =>
    if w.isPrefixOf (c :: s) then some 0 else (findWord? w s).map (c.utf8Size + ·)

/-- The offset of the first character of a kind. -/
def findChar? (p : Char → Bool) : List Char → Option Nat
  | [] => none
  | c :: s => if p c then some 0 else (findChar? p s).map (c.utf8Size + ·)

/-- The offset of the first byte `c` from an offset on. -/
def findByte (bs : List UInt8) (start : Nat) (c : Char) : Checked (Option Nat) :=
  if start ≤ bs.length then
    .ok (((bs.drop start).findIdx? fun b => Char.ofUInt8 b = c).map (start + ·))
  else .error (.slice start bs.length)

/-- The first star-slash is where a comment closes. -/
theorem findWord?_starSlash (s : List Char) :
    findWord? ['*', '/'] s = (closeComment? s).map fun p => byteSize p.1 - 2 := by
  fun_induction closeComment? s with
  | case1 r => rfl
  | case2 c r hc ih =>
    have hp : ['*', '/'].isPrefixOf (c :: r) = false := by
      rw [Bool.eq_false_iff, ne_eq, List.isPrefixOf_iff_prefix]
      rintro ⟨z, hz⟩
      obtain ⟨h₁, h₂⟩ := List.cons.inj hz
      exact hc z h₁.symm h₂.symm
    rw [findWord?, hp, if_neg (by simp), ih, Option.map_map, Option.map_map]
    cases hr : closeComment? r with
    | none => rfl
    | some p =>
      obtain ⟨inner, hinner, -⟩ := @exists_of_closeComment? r p.1 p.2 hr
      have hsize : 2 ≤ byteSize p.1 := by
        rw [hinner, byteSize_append]
        exact Nat.le_add_left _ _
      simp only [Option.map_some, Function.comp_apply, byteSize_cons]
      congr 1
      omega
  | case3 => rfl

/-- The first character of a kind stands behind those that are not. -/
theorem getD_findChar? (p : Char → Bool) (s : List Char) :
    (findChar? p s).getD (byteSize s) = byteSize (s.takeWhile (!p ·)) := by
  induction s with
  | nil => rfl
  | cons c s ih =>
    rw [findChar?, List.takeWhile_cons]
    cases hc : p c with
    | true => rfl
    | false =>
      simp only [Bool.false_eq_true, if_false, Bool.not_false, if_true, byteSize_cons, ← ih]
      cases findChar? p s with
      | none => rfl
      | some n => rfl

theorem findIdx?_encodeChar {c e : Char} (he : e.toNat < 128) (h : c ≠ e) :
    (String.utf8EncodeChar c).findIdx? (fun b => Char.ofUInt8 b = e) = none := by
  rw [List.findIdx?_eq_none_iff]
  intro b hb
  rw [decide_eq_false_iff_not]
  rintro rfl
  rcases Nat.lt_or_ge c.toNat 128 with hc | hc
  · rw [Text.Utf8.encodeChar_of_lt hc, List.mem_singleton] at hb
    exact h (by rw [hb, Text.Utf8.ofUInt8_toUInt8 hc])
  · have := Text.Utf8.le_of_mem_encodeChar hc hb
    rw [Text.Utf8.toNat_ofUInt8] at he
    omega

/-- Among the bytes of a text a byte below 128 is found where its character stands. -/
theorem findIdx?_bytes {e : Char} (he : e.toNat < 128) (s : List Char) :
    (bytes s).findIdx? (fun b => Char.ofUInt8 b = e) = findChar? (· = e) s := by
  induction s with
  | nil => rw [bytes_nil]; rfl
  | cons c s ih =>
    rw [bytes_cons, findChar?]
    by_cases hc : c = e
    · subst hc
      rw [Text.Utf8.encodeChar_of_lt he, if_pos (decide_eq_true rfl), List.singleton_append,
        List.findIdx?_cons, if_pos (decide_eq_true (Text.Utf8.ofUInt8_toUInt8 he))]
    · rw [List.findIdx?_append, findIdx?_encodeChar he hc, Option.none_or, ih,
        if_neg (by simpa using hc), String.length_utf8EncodeChar]
      simp only [Nat.add_comm]

theorem findByte_append {e : Char} (he : e.toNat < 128) (a r : List Char) :
    findByte (bytes (a ++ r)) (byteSize a) e
      = .ok ((findChar? (· = e) r).map (byteSize a + ·)) := by
  rw [findByte, if_pos (by rw [length_bytes, byteSize_append]; omega), drop_bytes_append,
    findIdx?_bytes he]

theorem getD_map_add (o : Option Nat) (n m : Nat) :
    (o.map (n + ·)).getD (n + m) = n + o.getD m := by
  cases o <;> rfl

/-- A byte that is looked for from another one on stands behind it. -/
theorem lt_of_findByte {bs : List UInt8} {start n : Nat} {b e : Char}
    (hb : byteAt bs start = .ok b) (hne : b ≠ e) (h : findByte bs start e = .ok (some n)) :
    start < n := by
  have hlt := lt_length_of_byteAt hb
  have hbyte : Char.ofUInt8 bs[start] = b := by
    rw [byteAt, byte?, List.getElem?_eq_getElem hlt] at hb
    exact Except.ok.inj hb
  rw [findByte, if_pos (Nat.le_of_lt hlt), List.drop_eq_getElem_cons hlt, List.findIdx?_cons,
    if_neg (by simpa [hbyte] using hne), Except.ok.injEq, Option.map_map] at h
  obtain ⟨k, -, rfl⟩ := Option.map_eq_some_iff.1 h
  simp only [Function.comp_apply]
  omega

/-! ## Loops -/

/-- How a turn of a loop ends: the loop goes on, or it is left with a result. -/
inductive Turn (σ ρ : Type) where
  | again (state : σ)
  | done (result : ρ)

theorem Turn.eq_ok_of_map_again {σ ρ : Type} {x : Checked σ} {s : σ}
    (h : (x.map .again : Checked (Turn σ ρ)) = .ok (.again s)) : x = .ok s := by
  cases x with
  | error e => cases h
  | ok s' =>
    cases h
    rfl

/-- A loop that goes on while there is something left to read. -/
structure Loop (σ ρ : Type) where
  /-- How much is left to read in a state. -/
  left : σ → Nat
  /-- One turn. -/
  body : σ → Checked (Turn σ ρ)
  /-- The result when nothing is left. -/
  exit : σ → ρ
  /-- A turn after which the loop goes on leaves less to read. -/
  progress : ∀ {s s' : σ}, 0 < left s → body s = .ok (.again s') → left s' < left s

namespace Loop

variable {σ ρ : Type} (l : Loop σ ρ)

/-- Runs the loop from a state. -/
def run (s : σ) : Checked ρ :=
  if _h : 0 < l.left s then
    match _hb : l.body s with
    | .error e => .error e
    | .ok (.done r) => .ok r
    | .ok (.again s') => run s'
  else .ok (l.exit s)
termination_by l.left s
decreasing_by exact l.progress _h _hb

/-- How many turns the loop takes from a state. -/
def turns (s : σ) : Nat :=
  if _h : 0 < l.left s then
    match _hb : l.body s with
    | .ok (.again s') => turns s' + 1
    | _ => 1
  else 0
termination_by l.left s
decreasing_by exact l.progress _h _hb

/-- A turn after which the loop goes on. -/
def GoesOn (s s' : σ) : Prop :=
  0 < l.left s ∧ l.body s = .ok (.again s')

/-- A loop takes at most as many turns as there is to read. -/
theorem turns_le (s : σ) : l.turns s ≤ l.left s := by
  fun_induction l.turns s with
  | case1 s h s' hb ih =>
    have := l.progress h hb
    omega
  | case2 s h => omega
  | case3 s h => exact Nat.zero_le _

variable {l} {s : σ}

theorem run_of_left_eq_zero (h : l.left s = 0) : l.run s = .ok (l.exit s) := by
  rw [run, dif_neg (by omega)]

theorem run_of_again {s' : σ} (h : 0 < l.left s) (hb : l.body s = .ok (.again s')) :
    l.run s = l.run s' := by
  rw [run, dif_pos h]
  split <;> simp_all

theorem run_of_done {r : ρ} (h : 0 < l.left s) (hb : l.body s = .ok (.done r)) :
    l.run s = .ok r := by
  rw [run, dif_pos h]
  split <;> simp_all

/-- What holds of the first state and is kept by every turn decides what holds of the
    result. -/
theorem run_induction {P : σ → Prop} {Q : ρ → Prop} (hs : P s)
    (again : ∀ s s', 0 < l.left s → P s → l.body s = .ok (.again s') → P s')
    (done : ∀ s r, 0 < l.left s → P s → l.body s = .ok (.done r) → Q r)
    (exit : ∀ s, l.left s = 0 → P s → Q (l.exit s)) {r : ρ} (h : l.run s = .ok r) : Q r := by
  fun_induction l.run s with
  | case1 s hpos e hb => cases h
  | case2 s hpos r' hb =>
    cases h
    exact done s _ hpos hs hb
  | case3 s hpos s' hb ih => exact ih (again s s' hpos hs hb) h
  | case4 s hpos =>
    cases h
    exact exit s (by omega) hs

end Loop

end PawnApi.Bytewise
