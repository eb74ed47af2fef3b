/-
  PawnApi.Proofs.Patterns

  Exclude patterns in terms of path components.

  Patterns are compared with paths as text, but a directory pattern starts and ends at
  slashes. With a slash in front of the path, every directory of it stands between two
  slashes, and a row of directories occurs in the text exactly where it occurs among the
  components before the last one (`infix_terminated_iff`). A suffix without a slash cannot
  reach over the last component (`suffix_joined_iff`).
-/
import Mathlib.Data.List.Infix
import PawnApi.Manifest.Basic

namespace PawnApi.Pattern

/-- A component of a path. -/
@[ext]
structure Component where
  text : List Char
  ne_nil : text ≠ []
  noSlash : '/' ∉ text

/-- Components as a path. -/
def joined (cs : List Component) : List Char :=
  List.intercalate ['/'] (cs.map Component.text)

/-- Components with a slash after each. -/
def terminated (cs : List Component) : List Char :=
  cs.flatMap fun c => c.text ++ ['/']

theorem terminated_cons (c : Component) (cs : List Component) :
    terminated (c :: cs) = c.text ++ '/' :: terminated cs := by
  rw [terminated, List.flatMap_cons, List.append_assoc]
  rfl

theorem joined_append_singleton (cs : List Component) (c : Component) :
    joined (cs ++ [c]) = terminated cs ++ c.text := by
  induction cs with
  | nil => simp [joined, terminated]
  | cons d cs ih =>
    have hne : (cs ++ [c]).map Component.text ≠ [] := by simp
    obtain ⟨w, ws, hws⟩ := List.exists_cons_of_ne_nil hne
    have hcons : joined (d :: (cs ++ [c])) = d.text ++ '/' :: joined (cs ++ [c]) := by
      simp [joined, hws, List.intercalate_cons_cons]
    rw [List.cons_append, hcons, ih, terminated_cons, List.append_assoc, List.cons_append]

theorem joined_append_slash {ds : List Component} (h : ds ≠ []) :
    joined ds ++ ['/'] = terminated ds := by
  obtain ⟨ds, d, rfl⟩ := ds.eq_nil_or_concat.resolve_left h
  rw [List.concat_eq_append, joined_append_singleton, terminated, terminated,
    List.flatMap_append, List.append_assoc, List.flatMap_singleton]

/-! ## Where components occur in a text -/

theorem occursIn_iff {w s : List Char} : occursIn w s = true ↔ w <:+: s := by
  induction s with
  | nil => simp [occursIn]
  | cons c s ih =>
    rw [occursIn, Bool.or_eq_true, ih, List.isPrefixOf_iff_prefix, List.infix_cons_iff]

/-- Two texts that go on after their first slash agree before it. -/
theorem append_slash_prefix_iff {u v : List Char} (hu : '/' ∉ u) (hv : '/' ∉ v)
    (s t : List Char) : u ++ '/' :: s <+: v ++ '/' :: t ↔ u = v ∧ s <+: t := by
  induction u generalizing v with
  | nil =>
    cases v with
    | nil => simp
    | cons c v =>
      have hc : '/' ≠ c := fun h => hv (h ▸ List.mem_cons_self)
      simp [hc]
  | cons b u ih =>
    simp only [List.mem_cons, not_or] at hu
    cases v with
    | nil => simp [Ne.symm hu.1]
    | cons c v =>
      simp only [List.mem_cons, not_or] at hv
      rw [List.cons_append, List.cons_append, List.cons_prefix_cons, ih hu.2 hv.2,
        List.cons.injEq, and_assoc]

/-- A text that starts with a slash does not start inside a component. -/
theorem slash_infix_append_iff {u : List Char} (hu : '/' ∉ u) (s t : List Char) :
    '/' :: s <:+: u ++ t ↔ '/' :: s <:+: t := by
  induction u with
  | nil => rfl
  | cons c u ih =>
    simp only [List.mem_cons, not_or] at hu
    rw [List.cons_append, List.infix_cons_iff, ih hu.2, List.cons_prefix_cons]
    simp [hu.1]

theorem terminated_prefix_iff (ds cs : List Component) (c : Component) :
    terminated ds <+: terminated cs ++ c.text ↔ ds <+: cs := by
  induction ds generalizing cs with
  | nil => simp [terminated]
  | cons d ds ih =>
    cases cs with
    | nil =>
      -- the last component has no slash for the first directory to end at
      have hslash : ¬ terminated (d :: ds) <+: c.text := fun h =>
        c.noSlash (h.subset (by simp [terminated_cons]))
      simpa [terminated] using hslash
    | cons e cs =>
      rw [terminated_cons, terminated_cons, List.append_assoc, List.cons_append,
        append_slash_prefix_iff d.noSlash e.noSlash, ih, List.cons_prefix_cons,
        Component.ext_iff]

/-- Directories between slashes occur in a path behind a slash exactly where they occur among
    its directories. -/
theorem infix_terminated_iff (ds cs : List Component) (c : Component) :
    '/' :: terminated ds <:+: '/' :: (terminated cs ++ c.text) ↔ ds <:+: cs := by
  -- at each slash of the path the directories start there or behind the next component
  induction cs with
  | nil =>
    have hslash : ¬ '/' :: terminated ds <:+: c.text := fun h =>
      c.noSlash (h.subset List.mem_cons_self)
    rw [List.infix_cons_iff, List.cons_prefix_cons, terminated_prefix_iff]
    show '/' = '/' ∧ ds <+: [] ∨ '/' :: terminated ds <:+: c.text ↔ ds <:+: []
    simp [hslash]
  | cons e cs ih =>
    rw [List.infix_cons_iff, List.cons_prefix_cons, terminated_prefix_iff, terminated_cons,
      List.append_assoc, List.cons_append, slash_infix_append_iff e.noSlash, ih,
      List.infix_cons_iff]
    simp

/-- A text without a slash that ends another one does not reach over a slash. -/
theorem suffix_append_slash_iff {s : List Char} (hs : '/' ∉ s) (u t : List Char) :
    s <:+ u ++ '/' :: t ↔ s <:+ t := by
  induction u with
  | nil =>
    have hne : s ≠ '/' :: t := fun h => hs (h ▸ List.mem_cons_self)
    simp [List.suffix_cons_iff, hne]
  | cons c u ih =>
    have hne : s ≠ c :: (u ++ '/' :: t) := fun h => hs (by simp [h])
    rw [List.cons_append, List.suffix_cons_iff, ih]
    simp [hne]

/-- A text without a slash that ends a path ends its last component. -/
theorem suffix_joined_iff {s : List Char} (hs : '/' ∉ s) (cs : List Component) (c : Component) :
    s <:+ joined (cs ++ [c]) ↔ s <:+ c.text := by
  rw [joined_append_singleton]
  induction cs with
  | nil => rfl
  | cons d cs ih =>
    rw [terminated_cons, List.append_assoc, List.cons_append, suffix_append_slash_iff hs, ih]

/-! ## Reading patterns -/

theorem ofDirectory_append (t : List Char) : ofDirectory (t ++ ['/', '*']) = .inside t := by
  rw [ofDirectory, if_pos (List.isSuffixOf_iff_suffix.2 (List.suffix_append _ _))]
  simp

theorem ofText_decorated (t : List Char) :
    ofText ('*' :: '*' :: '/' :: (t ++ ['/', '*'])) = .inside t := by
  rw [ofText, if_pos (by simp)]
  exact ofDirectory_append t

/-- A directory pattern is taken as it stands unless its first component is two stars. -/
theorem ofText_directory {d : Component} (hd : d.text ≠ ['*', '*']) (ds : List Component) :
    ofText (joined (d :: ds) ++ ['/', '*']) = .inside (joined (d :: ds)) := by
  have htext : joined (d :: ds) ++ ['/', '*'] = d.text ++ '/' :: (terminated ds ++ ['*']) := by
    have h := congrArg (· ++ ['*']) (joined_append_slash (List.cons_ne_nil d ds))
    simpa [terminated_cons] using h
  have hstars : ¬ ['*', '*', '/'] <+: joined (d :: ds) ++ ['/', '*'] := by
    rw [htext]
    intro h
    have h' : ['*', '*'] ++ '/' :: [] <+: d.text ++ '/' :: (terminated ds ++ ['*']) := h
    exact hd ((append_slash_prefix_iff (by decide) d.noSlash _ _).1 h').1.symm
  rw [ofText, if_neg (by rwa [List.isPrefixOf_iff_prefix]), if_neg (by simp [htext]),
    ofDirectory_append]

theorem ofText_star {s : List Char} (hs : '/' ∉ s) : ofText ('*' :: s) = .ending s := by
  have hstars : ¬ ['*', '*', '/'] <+: '*' :: s := fun h =>
    hs ((List.cons_prefix_cons.1 h).2.subset (by simp))
  rw [ofText, if_neg (by rwa [List.isPrefixOf_iff_prefix]), if_pos (by simp [hs])]
  rfl

/-! ## What patterns cover -/

/-- Whether the components `ds` stand one after the other among the directories of a path. -/
def StandsIn (ds cs : List Component) : Prop :=
  ∃ i, i + ds.length < cs.length ∧ ∀ j (h : j < ds.length), cs[i + j]? = some ds[j]

theorem standsIn_append_singleton_iff (ds cs : List Component) (c : Component) :
    StandsIn ds (cs ++ [c]) ↔ ds <:+: cs := by
  rw [List.infix_iff_getElem?]
  refine exists_congr fun i => ?_
  rw [List.length_append, List.length_singleton, Nat.lt_succ_iff, Nat.add_comm i]
  refine and_congr_right fun hi => forall₂_congr fun j hj => ?_
  rw [List.getElem?_append_left (by omega), Nat.add_comm]

theorem covers_inside_iff {ds cs : List Component} (hds : ds ≠ []) (hcs : cs ≠ []) :
    covers (.inside (joined ds)) (joined cs) = true ↔ StandsIn ds cs := by
  obtain ⟨cs, c, rfl⟩ := cs.eq_nil_or_concat.resolve_left hcs
  have hslash : '/' :: joined ds ++ ['/'] = '/' :: terminated ds :=
    congrArg ('/' :: ·) (joined_append_slash hds)
  rw [List.concat_eq_append, standsIn_append_singleton_iff, ← infix_terminated_iff ds cs c, covers,
    Bool.or_eq_true, occursIn_iff, List.isPrefixOf_iff_prefix, hslash, joined_append_slash hds,
    joined_append_singleton]
  -- at the start of the path, the slash in front of the directory is the one put there
  rw [List.infix_cons_iff (a := '/'), List.cons_prefix_cons]
  simp

theorem covers_ending_iff {s : List Char} (hs : '/' ∉ s) {cs : List Component} (hcs : cs ≠ []) :
    covers (.ending s) (joined cs) = true ↔ ∃ c ∈ cs.getLast?, s <:+ c.text := by
  obtain ⟨cs, c, rfl⟩ := cs.eq_nil_or_concat.resolve_left hcs
  rw [List.concat_eq_append, covers, List.isSuffixOf_iff_suffix, suffix_joined_iff hs]
  simp

/-- **Exclude patterns.** On a path of components, a directory pattern means that its
    components stand one after the other among the directories of the path, with or without
    two stars in front, and a star in front of a text without a slash means the end of the
    last component. A path is excluded if a pattern of the manifest covers it. -/
theorem covers_components (cs : List Component) (hcs : cs ≠ []) :
    (∀ ds : List Component, ds ≠ [] →
      (covers (ofText (['*', '*', '/'] ++ joined ds ++ ['/', '*'])) (joined cs) = true ↔
        StandsIn ds cs) ∧
      ((∀ d ∈ ds.head?, d.text ≠ ['*', '*']) →
        (covers (ofText (joined ds ++ ['/', '*'])) (joined cs) = true ↔ StandsIn ds cs))) ∧
    (∀ s : List Char, '/' ∉ s →
      (covers (ofText ('*' :: s)) (joined cs) = true ↔ ∃ c ∈ cs.getLast?, s <:+ c.text)) ∧
    ∀ (m : Manifest) (path : List Char), m.isExcluded path = true ↔
      ∃ p ∈ m.excludes, covers (ofText p.toList) path = true := by
  refine ⟨fun ds hds => ⟨?_, fun hfirst => ?_⟩, fun s hs => ?_, fun m path => ?_⟩
  · rw [← covers_inside_iff hds hcs, ← ofText_decorated]
    rfl
  · obtain ⟨d, ds, rfl⟩ := List.exists_cons_of_ne_nil hds
    rw [ofText_directory (hfirst d rfl), covers_inside_iff hds hcs]
  · rw [ofText_star hs, covers_ending_iff hs hcs]
  · rw [Manifest.isExcluded, List.any_eq_true]

/-- A directory counts where it stands as a whole name, also as the second one, and not
    where another name only ends like it. -/
theorem covers_components_names :
    covers (ofText "**/a/*".toList) "xa/a/b".toList = true ∧
    ¬ covers (ofText "a/*".toList) "xa/b".toList = true ∧
    covers (ofText "*.bak".toList) "a/b.bak".toList = true := by
  let a : Component := ⟨['a'], by decide, by decide⟩
  let xa : Component := ⟨['x', 'a'], by decide, by decide⟩
  let b : Component := ⟨['b'], by decide, by decide⟩
  let bak : Component := ⟨"b.bak".toList, by decide, by decide⟩
  have hsecond : StandsIn [a] [xa, a, b] := by
    refine ⟨1, by decide, fun j hj => ?_⟩
    obtain rfl : j = 0 := by simpa using hj
    rfl
  have hnot : ¬ StandsIn [a] [xa, b] := by
    rintro ⟨i, hi, h⟩
    obtain rfl : i = 0 := by
      simp only [List.length_cons, List.length_nil] at hi
      omega
    simpa [a, xa] using h 0 (by decide)
  have hcovers := covers_components [xa, a, b] (by simp)
  have hbare := covers_components [xa, b] (by simp)
  have hending := covers_components [a, bak] (by simp)
  exact ⟨(hcovers.1 [a] (by simp)).1.2 hsecond,
    fun h => hnot (((hbare.1 [a] (by simp)).2 (by simp [a])).1 h),
    (hending.2.1 ".bak".toList (by decide)).2 ⟨bak, rfl, ⟨['b'], rfl⟩⟩⟩

end PawnApi.Pattern
