/-
  PawnApi.Proofs.Trimming

  Texts that trimming leaves as they are, those with no blank at either end, the blanks
  around a text that it takes off, and texts without any of their blanks.
-/
import PawnApi.Text.Blank

namespace PawnApi.Text

theorem trimStart_eq_self {s : List Char} (h : ∀ c ∈ s.head?, isBlank c = false) :
    trimStart s = s := by
  cases s with
  | nil => rfl
  | cons c s => exact trimStart_cons_of_not_isBlank (h c rfl) s

theorem isBlank_head_trimStart (s : List Char) : ∀ c ∈ (trimStart s).head?, isBlank c = false := by
  intro c hc
  have h := List.head?_dropWhile_not isBlank s
  rw [trimStart] at hc
  rw [Option.mem_def.1 hc] at h
  simpa using h

/-- Leading blanks end before a character that is none. -/
theorem trimStart_append {c : Char} (hc : isBlank c = false) (x r : List Char) :
    trimStart (x ++ c :: r) = trimStart x ++ c :: r := by
  induction x with
  | nil => exact trimStart_cons_of_not_isBlank hc r
  | cons e x ih =>
    rw [List.cons_append]
    cases he : isBlank e with
    | true => rw [trimStart_cons_of_isBlank he, trimStart_cons_of_isBlank he, ih]
    | false =>
      rw [trimStart_cons_of_not_isBlank he, trimStart_cons_of_not_isBlank he]
      rfl

theorem trimEnd_eq_reverse (s : List Char) : trimEnd s = (trimStart s.reverse).reverse := rfl

theorem trimEnd_eq_self {s : List Char} (h : ∀ c ∈ s.getLast?, isBlank c = false) :
    trimEnd s = s := by
  rw [trimEnd_eq_reverse, trimStart_eq_self, List.reverse_reverse]
  rw [List.head?_reverse]
  exact h

theorem isBlank_getLast_trimEnd (s : List Char) :
    ∀ c ∈ (trimEnd s).getLast?, isBlank c = false := by
  rw [trimEnd_eq_reverse, List.getLast?_reverse]
  exact isBlank_head_trimStart s.reverse

theorem length_trimStart_le (s : List Char) : (trimStart s).length ≤ s.length :=
  (List.dropWhile_suffix isBlank).length_le

theorem length_trimEnd_le (s : List Char) : (trimEnd s).length ≤ s.length := by
  have h := length_trimStart_le s.reverse
  rw [trimEnd_eq_reverse, List.length_reverse]
  rwa [List.length_reverse] at h

/-- A text is trimmed if it neither starts nor ends with a blank. -/
theorem trim_eq_self_iff {s : List Char} : trim s = s ↔
    (∀ c ∈ s.head?, isBlank c = false) ∧ ∀ c ∈ s.getLast?, isBlank c = false := by
  refine ⟨fun h => ?_, fun ⟨h₁, h₂⟩ => ?_⟩
  · have hstart : trimStart s = s := by
      have h₁ := length_trimEnd_le (trimStart s)
      rw [show trimEnd (trimStart s) = s from h] at h₁
      exact (List.dropWhile_suffix isBlank).eq_of_length_le h₁
    refine ⟨?_, ?_⟩
    · rw [← hstart]
      exact isBlank_head_trimStart s
    · rw [← h]
      exact isBlank_getLast_trimEnd (trimStart s)
  · rw [trim, trimStart_eq_self h₁, trimEnd_eq_self h₂]

/-- One blank in front is taken off. -/
theorem trim_cons_of_isBlank {c : Char} (hc : isBlank c = true) (s : List Char) :
    trim (c :: s) = trim s := by
  rw [trim, trim, trimStart_cons_of_isBlank hc]

/-! ## Blanks around a text -/

section

variable {pad : List Char} (h : ∀ c ∈ pad, isBlank c = true) (s : List Char)

include h

theorem trimStart_append_of_isBlank : trimStart (pad ++ s) = trimStart s :=
  List.dropWhile_append_of_pos h

theorem trimEnd_append_of_isBlank : trimEnd (s ++ pad) = trimEnd s := by
  have hr : ∀ c ∈ pad.reverse, isBlank c = true := fun c hc => h c (List.mem_reverse.1 hc)
  rw [trimEnd_eq_reverse, List.reverse_append, trimStart_append_of_isBlank hr,
    ← trimEnd_eq_reverse]

/-- Blanks in front are taken off. -/
theorem trim_append_left : trim (pad ++ s) = trim s := by
  rw [trim, trim, trimStart_append_of_isBlank h]

/-- Blanks behind are taken off. -/
theorem trim_append_right : trim (s ++ pad) = trim s := by
  induction s with
  | nil => rw [List.nil_append, ← List.append_nil pad, trim_append_left h]
  | cons c s ih =>
    rw [List.cons_append]
    cases hc : isBlank c with
    | true => rw [trim_cons_of_isBlank hc, trim_cons_of_isBlank hc, ih]
    | false =>
      rw [trim, trim, trimStart_cons_of_not_isBlank hc, trimStart_cons_of_not_isBlank hc,
        ← List.cons_append, trimEnd_append_of_isBlank h]

end

theorem exists_eq_append_trimStart (s : List Char) :
    ∃ pad, (∀ c ∈ pad, isBlank c = true) ∧ s = pad ++ trimStart s :=
  ⟨s.takeWhile isBlank, List.all_eq_true.1 List.all_takeWhile,
    List.takeWhile_append_dropWhile.symm⟩

/-- What trimming takes off is blank. -/
theorem exists_eq_append_trim (s : List Char) :
    ∃ front back, (∀ c ∈ front, isBlank c = true) ∧ (∀ c ∈ back, isBlank c = true) ∧
      s = front ++ (trim s ++ back) := by
  obtain ⟨front, hfront, hs⟩ := exists_eq_append_trimStart s
  obtain ⟨back, hback, hr⟩ := exists_eq_append_trimStart (trimStart s).reverse
  refine ⟨front, back.reverse, hfront, fun c hc => hback c (List.mem_reverse.1 hc), ?_⟩
  rw [trim, trimEnd_eq_reverse, ← List.reverse_append, ← hr, List.reverse_reverse, ← hs]

theorem not_mem_trim {c : Char} {s : List Char} (h : c ∉ s) : c ∉ trim s := by
  intro hc
  obtain ⟨front, back, -, -, hs⟩ := exists_eq_append_trim s
  apply h
  rw [hs]
  simp [hc]

/-! ## Texts without blanks -/

/-- A text without its blanks. -/
def unblank (s : List Char) : List Char :=
  s.filter fun c => !isBlank c

@[simp] theorem unblank_append (s t : List Char) : unblank (s ++ t) = unblank s ++ unblank t :=
  List.filter_append ..

theorem isBlank_of_mem_unblank {s : List Char} {c : Char} (h : c ∈ unblank s) :
    isBlank c = false := by
  simpa using (List.mem_filter.1 h).2

theorem unblank_eq_self_iff {s : List Char} : unblank s = s ↔ ∀ c ∈ s, isBlank c = false := by
  simp [unblank, List.filter_eq_self]

theorem unblank_eq_nil_iff {s : List Char} : unblank s = [] ↔ ∀ c ∈ s, isBlank c = true := by
  simp [unblank, List.filter_eq_nil_iff]

/-- Trimming takes off nothing else than blanks. -/
theorem unblank_trim (s : List Char) : unblank (trim s) = unblank s := by
  obtain ⟨front, back, hfront, hback, hs⟩ := exists_eq_append_trim s
  have h := congrArg unblank hs
  rw [unblank_append, unblank_append, unblank_eq_nil_iff.2 hfront, unblank_eq_nil_iff.2 hback,
    List.nil_append, List.append_nil] at h
  exact h.symm

end PawnApi.Text
