/-
  PawnApi.Proofs.LineEndings

  How line endings are written does not matter.

  Bringing a text to line feeds in one pass is the same as replacing each `\r\n` and then
  each `\r` that is left (`lfEndings_eq_replaceAll`).
  Two texts are brought to line feeds on their own, unless a `\r\n` is cut apart between
  them (`lfEndings_append_of_seam`). So a text without carriage returns stays as it is, and
  a character that ends no line keeps its two sides apart. What comes out has no carriage
  return left, and a text whose line feeds were written as `\r\n` or as `\r` comes out as it
  was (`lfEndings_withEndings_pair`, `lfEndings_withEndings_return`), with the same entries.
-/
import PawnApi.Include

namespace PawnApi.Text

/-! ## Replacing pairs, then returns -/

/-- Replaces a word wherever it stands, from the left. -/
def replaceAll (old new : List Char) (s : List Char) : List Char :=
  match s with
  | [] => []
  | c :: r =>
    if old.isPrefixOf (c :: r) then new ++ replaceAll old new (r.drop (old.length - 1))
    else c :: replaceAll old new r
termination_by s.length
decreasing_by
  · simp only [List.length_drop, List.length_cons]
    omega
  · simp

theorem replaceAll_return (s : List Char) :
    replaceAll ['\r'] ['\n'] s = s.map fun c => if c = '\r' then '\n' else c := by
  induction s with
  | nil => rw [replaceAll, List.map_nil]
  | cons c s ih =>
    rw [replaceAll, List.map_cons, ← ih]
    by_cases hc : c = '\r'
    · simp [hc]
    · simp [hc, Ne.symm hc]

/-- Line endings are written in one pass, as if the pairs were replaced first and then the
    returns that are left. -/
theorem lfEndings_eq_replaceAll (s : List Char) :
    lfEndings s = replaceAll ['\r'] ['\n'] (replaceAll ['\r', '\n'] ['\n'] s) := by
  rw [replaceAll_return]
  fun_induction lfEndings s with
  | case1 s ih =>
    rw [replaceAll, if_pos (by simp)]
    simpa using ih
  | case2 c s hpair ih =>
    -- no pair stands here, so the first pass keeps the character
    have hno : ¬ ['\r', '\n'].isPrefixOf (c :: s) = true := by
      intro h
      obtain ⟨r, hr⟩ := List.isPrefixOf_iff_prefix.1 h
      obtain ⟨rfl, rfl⟩ := List.cons.inj hr
      exact hpair r rfl rfl
    rw [replaceAll, if_neg hno, List.map_cons, ih]
  | case3 => rw [replaceAll, List.map_nil]

/-! ## Seams -/

/-- Two texts are written on their own unless a `\r\n` is cut apart between them. -/
theorem lfEndings_append_of_seam {a b : List Char}
    (h : a.getLast? = some '\r' → b.head? ≠ some '\n') :
    lfEndings (a ++ b) = lfEndings a ++ lfEndings b := by
  fun_induction lfEndings a with
  | case1 s ih =>
    have hs : s.getLast? = some '\r' → b.head? ≠ some '\n' := fun hl =>
      h (by simp [List.getLast?_cons, hl])
    rw [List.cons_append, List.cons_append, lfEndings, ih hs]
    rfl
  | case2 c s hc ih =>
    have hs : s.getLast? = some '\r' → b.head? ≠ some '\n' := fun hl =>
      h (by simp [List.getLast?_cons, hl])
    -- a return at the end of the first text meets no line feed
    have hpair : ∀ r, c = '\r' → s ++ b = '\n' :: r → False := by
      rintro r rfl hr
      cases s with
      | nil => exact h rfl (List.head?_eq_some_iff.2 ⟨r, hr⟩)
      | cons x s => exact hc s rfl (by rw [(List.cons.inj hr).1])
    rw [List.cons_append, lfEndings.eq_2 _ _ hpair, ih hs]
    rfl
  | case3 => rfl

theorem lfEndings_cons_of_ne {c : Char} (hr : c ≠ '\r') (s : List Char) :
    lfEndings (c :: s) = c :: lfEndings s := by
  rw [lfEndings.eq_2 _ _ (fun _ h => absurd h hr), if_neg hr]

theorem lfEndings_of_not_mem {a : List Char} (h : '\r' ∉ a) : lfEndings a = a := by
  induction a with
  | nil => rfl
  | cons c a ih =>
    simp only [List.mem_cons, not_or] at h
    rw [lfEndings_cons_of_ne (Ne.symm h.1), ih h.2]

/-- A text without carriage returns stays as it is, whatever follows. -/
theorem lfEndings_append {a : List Char} (h : '\r' ∉ a) (b : List Char) :
    lfEndings (a ++ b) = a ++ lfEndings b := by
  rw [lfEndings_append_of_seam fun ha => absurd (List.mem_of_getLast? ha) h,
    lfEndings_of_not_mem h]

/-- A character that ends no line keeps the texts on its two sides apart. -/
theorem lfEndings_append_cons {c : Char} (hn : c ≠ '\n') (hr : c ≠ '\r') (a b : List Char) :
    lfEndings (a ++ c :: b) = lfEndings a ++ c :: lfEndings b := by
  rw [lfEndings_append_of_seam fun _ => by simpa using hn, lfEndings_cons_of_ne hr]

/-- The whole is written as its two parts exactly where no pair is cut apart: a pair that is
    becomes two line feeds in the parts and one in the whole. -/
theorem lfEndings_append_eq_iff (a b : List Char) :
    lfEndings (a ++ b) = lfEndings a ++ lfEndings b ↔
      ¬ (a.getLast? = some '\r' ∧ b.head? = some '\n') := by
  constructor
  · rintro h ⟨ha, hb⟩
    obtain ⟨a, rfl⟩ := List.getLast?_eq_some_iff.1 ha
    obtain ⟨b, rfl⟩ := List.head?_eq_some_iff.1 hb
    have hwhole : lfEndings (a ++ '\r' :: '\n' :: b) = lfEndings a ++ '\n' :: lfEndings b := by
      rw [lfEndings_append_of_seam (by simp), lfEndings]
    have hfirst : lfEndings (a ++ ['\r']) = lfEndings a ++ ['\n'] := by
      rw [lfEndings_append_of_seam (by simp)]
      rfl
    have hsecond : lfEndings ('\n' :: b) = '\n' :: lfEndings b :=
      lfEndings_cons_of_ne (by decide) b
    rw [List.append_assoc, List.singleton_append, hwhole, hfirst, hsecond] at h
    simpa using congrArg List.length h
  · intro h
    exact lfEndings_append_of_seam fun ha hb => h ⟨ha, hb⟩

/-! ## What comes out -/

theorem not_mem_lfEndings (s : List Char) : '\r' ∉ lfEndings s := by
  fun_induction lfEndings s with
  | case1 s ih => simpa using ih
  | case2 c s _ ih =>
    rw [List.mem_cons, not_or]
    refine ⟨?_, ih⟩
    split
    · decide
    · exact fun h => ‹¬ c = '\r'› h.symm
  | case3 => simp

theorem head?_lfEndings (s : List Char) :
    (lfEndings s).head? = s.head?.map fun c => if c = '\r' then '\n' else c := by
  fun_induction lfEndings s with
  | case1 => rfl
  | case2 => rfl
  | case3 => rfl

/-- A character that comes first once the endings are written came first before, unless it
    ends a line. -/
theorem head?_of_head?_lfEndings {c : Char} (hn : c ≠ '\n') {s : List Char}
    (h : (lfEndings s).head? = some c) : s.head? = some c := by
  rw [head?_lfEndings] at h
  obtain ⟨e, he, hec⟩ := Option.map_eq_some_iff.1 h
  split at hec
  · exact absurd hec.symm hn
  · rw [he, hec]

/-- Two marks stand next to each other only where they did before. -/
theorem infix_of_infix_lfEndings {x y : Char} (hx : x ≠ '\n') (hy : y ≠ '\n') {s : List Char}
    (h : [x, y] <:+: lfEndings s) : [x, y] <:+: s := by
  fun_induction lfEndings s with
  | case1 s ih =>
    rcases List.infix_cons_iff.1 h with hp | hi
    · obtain ⟨r, hr⟩ := hp
      exact absurd (List.cons.inj hr).1 hx
    · exact List.infix_cons (List.infix_cons (ih hi))
  | case2 c s _ ih =>
    rcases List.infix_cons_iff.1 h with ⟨r, hr⟩ | hi
    · obtain ⟨hc, hs⟩ := List.cons.inj hr
      have hxc : x = c := by
        split at hc
        · exact absurd hc hx
        · exact hc
      have hhead : s.head? = some y := by
        apply head?_of_head?_lfEndings hy
        rw [← hs]
        rfl
      obtain ⟨s', rfl⟩ := List.head?_eq_some_iff.1 hhead
      rw [hxc]
      exact ⟨[], s', rfl⟩
    · exact List.infix_cons (ih hi)
  | case3 => exact h

/-! ## Other line endings -/

/-- Writes every line feed of a text as another line ending. -/
def withEndings (ending s : List Char) : List Char :=
  s.flatMap fun c => if c = '\n' then ending else [c]

theorem withEndings_cons (ending : List Char) (c : Char) (s : List Char) :
    withEndings ending (c :: s) = (if c = '\n' then ending else [c]) ++ withEndings ending s :=
  List.flatMap_cons ..

theorem lfEndings_withEndings_pair {s : List Char} (h : '\r' ∉ s) :
    lfEndings (withEndings ['\r', '\n'] s) = s := by
  induction s with
  | nil => rfl
  | cons c s ih =>
    simp only [List.mem_cons, not_or] at h
    rw [withEndings_cons]
    split
    · rename_i hc
      rw [List.cons_append, List.cons_append, List.nil_append, lfEndings, ih h.2, hc]
    · rw [List.singleton_append, lfEndings_cons_of_ne (Ne.symm h.1), ih h.2]

/-- No line feed is left that a return could take for its own. -/
theorem not_mem_withEndings_return (s : List Char) : '\n' ∉ withEndings ['\r'] s := by
  intro h
  obtain ⟨c, -, hc⟩ := List.mem_flatMap.1 h
  split at hc
  · simp at hc
  · exact ‹¬ c = '\n'› (List.mem_singleton.1 hc).symm

theorem lfEndings_withEndings_return {s : List Char} (h : '\r' ∉ s) :
    lfEndings (withEndings ['\r'] s) = s := by
  induction s with
  | nil => rfl
  | cons c s ih =>
    simp only [List.mem_cons, not_or] at h
    -- the rest starts with no line feed, so a return in front of it ends a line alone
    have hhead : (withEndings ['\r'] s).head? ≠ some '\n' := fun hs =>
      not_mem_withEndings_return s (List.mem_of_head? hs)
    rw [withEndings_cons, lfEndings_append_of_seam fun _ => hhead, ih h.2]
    split
    · rename_i hc
      rw [hc]
      rfl
    · rw [lfEndings_cons_of_ne (Ne.symm h.1)]
      rfl

end PawnApi.Text

namespace PawnApi.Include

open PawnApi.Text

/-- **Line endings.** A text has the same entries however its line feeds are written. Writing
    endings as line feeds leaves no carriage return, changes nothing the second time, and
    goes part by part exactly where no `\r\n` is cut apart. -/
theorem parse_withEndings :
    (∀ (s : List Char) (file : String), '\r' ∉ s →
      parse (withEndings ['\r', '\n'] s) file = parse s file ∧
      parse (withEndings ['\r'] s) file = parse s file) ∧
    (∀ t : List Char, '\r' ∉ lfEndings t ∧ lfEndings (lfEndings t) = lfEndings t) ∧
    ∀ a b : List Char, lfEndings (a ++ b) = lfEndings a ++ lfEndings b ↔
      ¬ (a.getLast? = some '\r' ∧ b.head? = some '\n') := by
  refine ⟨fun s file hs => ?_, fun t => ⟨not_mem_lfEndings t, ?_⟩, lfEndings_append_eq_iff⟩
  · unfold parse
    rw [lfEndings_withEndings_pair hs, lfEndings_withEndings_return hs, lfEndings_of_not_mem hs]
    exact ⟨rfl, rfl⟩
  · exact lfEndings_of_not_mem (not_mem_lfEndings t)

/-- An empty line and a line inside a parameter list, both written as pairs and as returns. -/
theorem parse_withEndings_lines :
    '\r' ∉ "/** F.\n\n */\nnative void f(int a,\n int b);\n".toList ∧
    parse "/** F.\r\n\r\n */\r\nnative void f(int a,\r\n int b);\r\n".toList "a.inc"
      = parse "/** F.\n\n */\nnative void f(int a,\n int b);\n".toList "a.inc" ∧
    parse "/** F.\r\r */\rnative void f(int a,\r int b);\r".toList "a.inc"
      = parse "/** F.\n\n */\nnative void f(int a,\n int b);\n".toList "a.inc" := by
  have hpairs : "/** F.\r\n\r\n */\r\nnative void f(int a,\r\n int b);\r\n".toList
      = withEndings ['\r', '\n'] "/** F.\n\n */\nnative void f(int a,\n int b);\n".toList := by
    decide
  have hreturns : "/** F.\r\r */\rnative void f(int a,\r int b);\r".toList
      = withEndings ['\r'] "/** F.\n\n */\nnative void f(int a,\n int b);\n".toList := by
    decide
  have hnone : '\r' ∉ "/** F.\n\n */\nnative void f(int a,\n int b);\n".toList := by decide
  rw [hpairs, hreturns]
  exact ⟨hnone, parse_withEndings.1 _ "a.inc" hnone⟩

end PawnApi.Include
