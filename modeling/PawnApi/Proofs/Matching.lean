/-
  PawnApi.Proofs.Matching

  The bracket that closes another one.

  `ClosesAt` says by counting alone that the bracket at one place of a list is closed at
  another: from the first place to the second, as many brackets close as open. `closing?`
  searches for such a place with a count of what is open. It finds the first one
  (`isLeast_closesAt_iff`), and what stands between the two brackets is nested
  (`nested_interior`). The tokens of a group are found by this search
  (`closeGroup?_eq_closing?`).
-/
import Mathlib.Data.Nat.Find
import Mathlib.Order.Bounds.Basic
import PawnApi.Proofs.Frames

namespace PawnApi.Source

section Closing

variable {α : Type} (o c : α → Bool)

/-- The members from place `i` to place `j`, both included. -/
def stretch (ts : List α) (i j : Nat) : List α :=
  (ts.drop i).take (j + 1 - i)

/-- The members between place `i` and place `j`. -/
def interior (ts : List α) (i j : Nat) : List α :=
  (ts.drop (i + 1)).take (j - (i + 1))

/-- A bracket opens at place `i`, and up to place `j` behind it as many close as open. -/
structure ClosesAt (ts : List α) (i j : Nat) : Prop where
  opens : ∃ t, ts[i]? = some t ∧ o t = true
  lt : i < j
  lt_length : j < ts.length
  equal : (stretch ts i j).countP c = (stretch ts i j).countP o

/-- As many brackets close as open, and nowhere have more been closed than were opened. -/
structure Nested (ts : List α) : Prop where
  equal : ts.countP c = ts.countP o
  le_of_prefix : ∀ front, front <+: ts → front.countP c ≤ front.countP o

/-- The first place that closes something that was not opened in the list, beyond `depth`
    brackets that are open. -/
def closing? : Nat → List α → Option Nat
  | _, [] => none
  | depth, t :: ts =>
    if o t then (closing? (depth + 1) ts).map (· + 1)
    else if c t then
      if depth = 0 then some 0 else (closing? (depth - 1) ts).map (· + 1)
    else (closing? depth ts).map (· + 1)

variable {o c}

/-- As long as nothing is found, no more is closed than was opened. -/
theorem countP_le_of_closing? (hoc : ∀ t, o t = true → c t = false) (depth : Nat) (ts : List α)
    {n : Nat} (h : ∀ j ∈ closing? o c depth ts, n ≤ j) :
    (ts.take n).countP c ≤ depth + (ts.take n).countP o := by
  induction ts generalizing depth n with
  | nil => simp
  | cons t ts ih =>
    cases n with
    | zero => simp
    | succ n =>
      rw [List.take_succ_cons, List.countP_cons, List.countP_cons]
      rw [closing?] at h
      cases ho : o t with
      | true =>
        -- one more is open, and one more has been opened
        rw [ho, if_pos rfl] at h
        have hrest := ih (depth + 1) (n := n) fun j hj => by
          have := h (j + 1) (by simpa using hj)
          omega
        rw [hoc t ho]
        simp only [if_true, Bool.false_eq_true, if_false]
        omega
      | false =>
        rw [ho, if_neg (by simp)] at h
        cases hc : c t with
        | true =>
          rw [hc, if_pos rfl] at h
          by_cases hd : depth = 0
          · -- this place would be found, but only later ones may be
            rw [if_pos hd] at h
            have := h 0 rfl
            omega
          · rw [if_neg hd] at h
            have hrest := ih (depth - 1) (n := n) fun j hj => by
              have := h (j + 1) (by simpa using hj)
              omega
            simp only [if_true, Bool.false_eq_true, if_false]
            omega
        | false =>
          rw [hc, if_neg (by simp)] at h
          have hrest := ih depth (n := n) fun j hj => by
            have := h (j + 1) (by simpa using hj)
            omega
          simpa using hrest

/-- What is found closes a bracket, and up to it only the open ones were closed. -/
theorem of_closing? (hoc : ∀ t, o t = true → c t = false) {depth : Nat} {ts : List α} {j : Nat}
    (h : closing? o c depth ts = some j) :
    ∃ t, ts[j]? = some t ∧ o t = false ∧ c t = true ∧
      (ts.take j).countP c = depth + (ts.take j).countP o := by
  induction ts generalizing depth j with
  | nil => simp [closing?] at h
  | cons t ts ih =>
    rw [closing?] at h
    split at h
    · rename_i ho
      obtain ⟨k, hk, rfl⟩ := Option.map_eq_some_iff.1 h
      obtain ⟨u, hu, huo, huc, hcount⟩ := ih hk
      refine ⟨u, by simpa using hu, huo, huc, ?_⟩
      rw [List.take_succ_cons, List.countP_cons, List.countP_cons, hoc t ho, ho]
      simp only [if_true, Bool.false_eq_true, if_false]
      omega
    · rename_i ho
      split at h
      · rename_i hc
        split at h
        · rename_i hd
          simp only [Option.some.injEq] at h
          subst h
          exact ⟨t, rfl, by simpa using ho, hc, by simp [hd]⟩
        · obtain ⟨k, hk, rfl⟩ := Option.map_eq_some_iff.1 h
          obtain ⟨u, hu, huo, huc, hcount⟩ := ih hk
          refine ⟨u, by simpa using hu, huo, huc, ?_⟩
          rw [List.take_succ_cons, List.countP_cons, List.countP_cons, hc]
          simp only [if_true, ho, Bool.false_eq_true, if_false]
          omega
      · rename_i hc
        obtain ⟨k, hk, rfl⟩ := Option.map_eq_some_iff.1 h
        obtain ⟨u, hu, huo, huc, hcount⟩ := ih hk
        refine ⟨u, by simpa using hu, huo, huc, ?_⟩
        rw [List.take_succ_cons, List.countP_cons, List.countP_cons]
        simp only [ho, hc, Bool.false_eq_true, if_false]
        omega

/-- The search looks at nothing but the brackets. -/
theorem closing?_eq_of_map_eq {β : Type} {o' c' : β → Bool} (depth : Nat) {ts : List α}
    {us : List β} (h : ts.map (fun t => (o t, c t)) = us.map fun u => (o' u, c' u)) :
    closing? o c depth ts = closing? o' c' depth us := by
  induction ts generalizing depth us with
  | nil =>
    cases us with
    | nil => rfl
    | cons u us => simp at h
  | cons t ts ih =>
    cases us with
    | nil => simp at h
    | cons u us =>
      simp only [List.map_cons, List.cons.injEq, Prod.mk.injEq] at h
      simp only [closing?, h.1.1, h.1.2, ih _ h.2]

/-! ## A bracket at a place of a list -/

theorem stretch_eq {ts : List α} {i : Nat} {t : α} (hi : ts[i]? = some t) (k : Nat) :
    stretch ts i (i + 1 + k) = t :: (ts.drop (i + 1)).take (k + 1) := by
  obtain ⟨hlt, rfl⟩ := List.getElem?_eq_some_iff.1 hi
  rw [stretch, List.drop_eq_getElem_cons hlt, show i + 1 + k + 1 - i = (k + 1) + 1 by omega,
    List.take_succ_cons]

/-- Behind an opening bracket, closing it is a matter of the members after it. -/
theorem closesAt_iff (hoc : ∀ t, o t = true → c t = false) {ts : List α} {i : Nat} {t : α}
    (hi : ts[i]? = some t) (ho : o t = true) (k : Nat) :
    ClosesAt o c ts i (i + 1 + k) ↔ i + 1 + k < ts.length ∧
      ((ts.drop (i + 1)).take (k + 1)).countP c =
        ((ts.drop (i + 1)).take (k + 1)).countP o + 1 := by
  have hcount : (stretch ts i (i + 1 + k)).countP c = (stretch ts i (i + 1 + k)).countP o ↔
      ((ts.drop (i + 1)).take (k + 1)).countP c =
        ((ts.drop (i + 1)).take (k + 1)).countP o + 1 := by
    rw [stretch_eq hi, List.countP_cons, List.countP_cons, hoc t ho, ho]
    simp
  constructor
  · intro h
    exact ⟨h.lt_length, hcount.1 h.equal⟩
  · rintro ⟨hlt, hcount'⟩
    exact ⟨⟨t, hi, ho⟩, by omega, hlt, hcount.2 hcount'⟩

/-- Nothing closes the bracket before the place that the search finds. -/
theorem le_of_closesAt (hoc : ∀ t, o t = true → c t = false) {ts : List α} {i j n : Nat}
    (hn : ∀ k ∈ closing? o c 0 (ts.drop (i + 1)), n ≤ k) (h : ClosesAt o c ts i j) :
    i + 1 + n ≤ j := by
  obtain ⟨t, hi, ho⟩ := h.opens
  have hlt := h.lt
  obtain ⟨m, rfl⟩ : ∃ m, j = i + 1 + m := ⟨j - (i + 1), by omega⟩
  have hcount := ((closesAt_iff hoc hi ho m).1 h).2
  by_contra hm
  have hle := countP_le_of_closing? hoc 0 (ts.drop (i + 1)) (n := m + 1)
    fun k hk => by have := hn k hk; omega
  omega

theorem closesAt_of_closing? (hoc : ∀ t, o t = true → c t = false) {ts : List α} {i k : Nat}
    {t : α} (hi : ts[i]? = some t) (ho : o t = true)
    (h : closing? o c 0 (ts.drop (i + 1)) = some k) : ClosesAt o c ts i (i + 1 + k) := by
  obtain ⟨u, hu, huo, huc, hcount⟩ := of_closing? hoc h
  rw [List.getElem?_drop] at hu
  refine (closesAt_iff hoc hi ho k).2 ⟨(List.getElem?_eq_some_iff.1 hu).1, ?_⟩
  rw [List.take_add_one, List.getElem?_drop, hu]
  simp [List.countP_append, huo, huc, hcount]

/-- The search finds the first place that closes the bracket. -/
theorem isLeast_closesAt_iff (hoc : ∀ t, o t = true → c t = false) {ts : List α} {i j : Nat}
    {t : α} (hi : ts[i]? = some t) (ho : o t = true) :
    IsLeast {j | ClosesAt o c ts i j} j ↔
      ∃ k, j = i + 1 + k ∧ closing? o c 0 (ts.drop (i + 1)) = some k := by
  constructor
  · rintro ⟨hj, hleast⟩
    cases hk : closing? o c 0 (ts.drop (i + 1)) with
    | none =>
      have hle := le_of_closesAt (n := j) hoc (by simp [hk]) hj
      omega
    | some k =>
      have hle := le_of_closesAt (n := k) hoc (by simp [hk]) hj
      exact ⟨k, Nat.le_antisymm (hleast (closesAt_of_closing? hoc hi ho hk)) hle, rfl⟩
  · rintro ⟨k, rfl, hk⟩
    exact ⟨closesAt_of_closing? hoc hi ho hk,
      fun j hj => le_of_closesAt hoc (by simp [hk]) hj⟩

theorem closing?_eq_none_iff (hoc : ∀ t, o t = true → c t = false) {ts : List α} {i : Nat}
    {t : α} (hi : ts[i]? = some t) (ho : o t = true) :
    closing? o c 0 (ts.drop (i + 1)) = none ↔ ∀ j, ¬ ClosesAt o c ts i j := by
  constructor
  · intro hnone j hj
    have hle := le_of_closesAt (n := j) hoc (by simp [hnone]) hj
    omega
  · intro h
    cases hk : closing? o c 0 (ts.drop (i + 1)) with
    | none => rfl
    | some k => exact absurd (closesAt_of_closing? hoc hi ho hk) (h _)

/-- A bracket that is closed is closed at a first place. -/
theorem exists_isLeast_closesAt {ts : List α} {i j : Nat} (h : ClosesAt o c ts i j) :
    ∃ j, IsLeast {j | ClosesAt o c ts i j} j := by
  classical
  exact ⟨Nat.find ⟨j, h⟩, Nat.find_spec ⟨j, h⟩, fun _ hk => Nat.find_min' ⟨j, h⟩ hk⟩

/-- What stands between a bracket and the first place that closes it is nested. -/
theorem nested_interior (hoc : ∀ t, o t = true → c t = false) {ts : List α} {i j : Nat}
    (h : IsLeast {j | ClosesAt o c ts i j} j) : Nested o c (interior ts i j) := by
  obtain ⟨t, hi, ho⟩ := h.1.opens
  obtain ⟨k, rfl, hk⟩ := (isLeast_closesAt_iff hoc hi ho).1 h
  have hin : interior ts i (i + 1 + k) = (ts.drop (i + 1)).take k := by
    rw [interior, Nat.add_sub_cancel_left]
  rw [hin]
  refine ⟨?_, fun front hfront => ?_⟩
  · obtain ⟨_, _, _, _, hcount⟩ := of_closing? hoc hk
    simpa using hcount
  · -- a front of the interior is what the search has passed
    obtain ⟨n, rfl, hn⟩ : ∃ n, front = (ts.drop (i + 1)).take n ∧ n ≤ k := by
      refine ⟨min front.length k, ?_, by omega⟩
      have hfront' := List.prefix_iff_eq_take.1 hfront
      rw [List.take_take] at hfront'
      exact hfront'
    have hle := countP_le_of_closing? hoc 0 (ts.drop (i + 1)) (n := n)
      fun j hj => by
        rw [hk] at hj
        simp only [Option.mem_def, Option.some.injEq] at hj
        omega
    simpa using hle

/-- The place that closes a bracket holds a closing one. -/
theorem closes_of_isLeast (hoc : ∀ t, o t = true → c t = false) {ts : List α} {i j : Nat}
    (h : IsLeast {j | ClosesAt o c ts i j} j) : ∃ t, ts[j]? = some t ∧ c t = true := by
  obtain ⟨t, hi, ho⟩ := h.1.opens
  obtain ⟨k, rfl, hk⟩ := (isLeast_closesAt_iff hoc hi ho).1 h
  obtain ⟨u, hu, _, huc, _⟩ := of_closing? hoc hk
  exact ⟨u, by rwa [List.getElem?_drop] at hu, huc⟩

end Closing

/-! ## Groups of tokens -/

/-- A group ends where the search says. -/
theorem closeGroup?_eq_closing? (opn cls : Char) (depth : Nat) (ts : List Token) :
    closeGroup? opn cls depth ts =
      (closing? (·.isPunct opn) (·.isPunct cls) depth ts).bind fun k =>
        ts[k]?.map fun t => ⟨ts.take k, t, ts.drop (k + 1)⟩ := by
  -- one token further on, the group is the one found behind it with the token in front
  have push (t : Token) (ts : List Token) (found : Option Nat) :
      (found.bind fun k => ts[k]?.map fun u => (⟨ts.take k, u, ts.drop (k + 1)⟩ : Group)).map
          (Group.push t) =
        (found.map (· + 1)).bind fun k =>
          (t :: ts)[k]?.map fun u => ⟨(t :: ts).take k, u, (t :: ts).drop (k + 1)⟩ := by
    cases found with
    | none => rfl
    | some k => cases hk : ts[k]? <;> simp [hk, Group.push]
  induction ts generalizing depth with
  | nil => rfl
  | cons t ts ih =>
    rw [closeGroup?, closing?]
    split
    · rw [ih, push]
    split
    · split
      · rfl
      · rw [ih, push]
    · rw [ih, push]

theorem drop_eq_cons {ts : List Token} {i : Nat} {t : Token} (h : ts[i]? = some t) :
    ts.drop i = t :: ts.drop (i + 1) := by
  obtain ⟨hlt, rfl⟩ := List.getElem?_eq_some_iff.1 h
  exact List.drop_eq_getElem_cons hlt

/-- The group at a place of a token list ends at the first place that closes it. -/
theorem group?_of_isLeast {opn cls : Char} (hne : opn ≠ cls) {ts : List Token} {i j : Nat}
    (h : IsLeast {j | ClosesAt (·.isPunct opn) (·.isPunct cls) ts i j} j) :
    ∃ closer, ts[j]? = some closer ∧ closer.isPunct cls = true ∧
      group? opn cls (ts.drop i) = some ⟨interior ts i j, closer, ts.drop (j + 1)⟩ := by
  have hoc : ∀ t : Token, t.isPunct opn = true → t.isPunct cls = false :=
    fun _ ht => Token.isPunct_of_ne ht hne
  obtain ⟨first, hfirst, hopn⟩ := h.1.opens
  obtain ⟨closer, hcloser, hcls⟩ := closes_of_isLeast hoc h
  obtain ⟨k, rfl, hk⟩ := (isLeast_closesAt_iff hoc hfirst hopn).1 h
  refine ⟨closer, hcloser, hcls, ?_⟩
  rw [drop_eq_cons hfirst, group?, if_pos hopn, closeGroup?_eq_closing?, hk, Option.bind_some,
    List.getElem?_drop, hcloser, interior, Nat.add_sub_cancel_left, List.drop_drop]
  rfl

/-- A bracket that nothing closes starts no group. -/
theorem group?_of_not_closesAt {opn cls : Char} (hne : opn ≠ cls) {ts : List Token} {i : Nat}
    (h : ∀ j, ¬ ClosesAt (·.isPunct opn) (·.isPunct cls) ts i j) :
    group? opn cls (ts.drop i) = none := by
  have hoc : ∀ t : Token, t.isPunct opn = true → t.isPunct cls = false :=
    fun _ ht => Token.isPunct_of_ne ht hne
  cases hfirst : ts[i]? with
  | none =>
    rw [List.drop_eq_nil_of_le (List.getElem?_eq_none_iff.1 hfirst)]
    rfl
  | some first =>
    rw [drop_eq_cons hfirst, group?]
    split
    · rename_i hopn
      rw [closeGroup?_eq_closing?, (closing?_eq_none_iff hoc hfirst hopn).2 h]
      rfl
    · rfl

end PawnApi.Source
