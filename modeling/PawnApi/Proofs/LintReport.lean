/-
  PawnApi.Proofs.LintReport

  What a lint run reports.

  A place of a list repeats a key if an earlier place has the same one (`repeatPlaces`), and
  there are as many such places as the list has members more than distinct keys
  (`length_repeatPlaces`). The checks that go through a list with what they have seen so far
  report exactly these places: the parameters of each entry by their names (`repeats_map`),
  the entries by type and name (`forall₂_repeatedEntriesFrom`). So the counts, and with them
  whether anything is reported at all, do not depend on the order of the entries.
-/
import Mathlib.Algebra.BigOperators.Group.List.Basic
import Mathlib.Algebra.GroupWithZero.Nat
import Mathlib.Data.Finset.Card
import Mathlib.Data.List.FinRange
import Mathlib.Data.List.Forall2
import PawnApi.Lint

namespace PawnApi.Lint

/-! ## Places that repeat a key -/

section Places

variable {α β : Type} [DecidableEq β]

/-- The places of a list whose member has the key of an earlier one. -/
def repeatPlaces (key : α → β) (xs : List α) : List (Fin xs.length) :=
  (List.finRange xs.length).filter fun i => ∃ j < i, key xs[j] = key xs[i]

/-- The places of a list whose member has a key in `seen` or the key of an earlier one. -/
def repeatPlacesFrom (key : α → β) (seen : List β) (xs : List α) : List (Fin xs.length) :=
  (List.finRange xs.length).filter fun i => key xs[i] ∈ seen ∨ ∃ j < i, key xs[j] = key xs[i]

theorem repeatPlacesFrom_nil (key : α → β) (xs : List α) :
    repeatPlacesFrom key [] xs = repeatPlaces key xs := by
  simp [repeatPlacesFrom, repeatPlaces]

theorem repeatPlacesFrom_congr {key : α → β} {seen seen' : List β}
    (h : ∀ k, k ∈ seen ↔ k ∈ seen') (xs : List α) :
    repeatPlacesFrom key seen xs = repeatPlacesFrom key seen' xs := by
  simp only [repeatPlacesFrom, h]

omit [DecidableEq β] in
/-- Behind the first member, what comes before a place is the first key and what came before
    the place without it. -/
theorem repeats_succ_iff (key : α → β) (seen : List β) (x : α) (xs : List α)
    (i : Fin xs.length) :
    (key xs[i] ∈ seen ∨ ∃ j : Fin (x :: xs).length, j < i.succ ∧ key (x :: xs)[j] = key xs[i]) ↔
      (key xs[i] ∈ key x :: seen ∨ ∃ j < i, key xs[j] = key xs[i]) := by
  have hexists : (∃ j : Fin (x :: xs).length, j < i.succ ∧ key (x :: xs)[j] = key xs[i]) ↔
      key x = key xs[i] ∨ ∃ j < i, key xs[j] = key xs[i] := by
    refine Fin.exists_fin_succ.trans (or_congr ?_ (exists_congr fun j => ?_))
    · simp
    · simp
  rw [hexists, List.mem_cons, eq_comm (a := key xs[i]), ← or_assoc, or_comm (a := _ ∈ seen)]

theorem repeatPlacesFrom_cons (key : α → β) (seen : List β) (x : α) (xs : List α) :
    repeatPlacesFrom key seen (x :: xs) =
      (if key x ∈ seen then [0] else []) ++
        (repeatPlacesFrom key (key x :: seen) xs).map Fin.succ := by
  have hrange : List.finRange (x :: xs).length
      = 0 :: (List.finRange xs.length).map Fin.succ := List.finRange_succ
  have hrest : (List.finRange xs.length).filter ((fun i : Fin (x :: xs).length =>
        decide (key (x :: xs)[i] ∈ seen ∨ ∃ j < i, key (x :: xs)[j] = key (x :: xs)[i])) ∘
          Fin.succ) = repeatPlacesFrom key (key x :: seen) xs :=
    List.filter_congr fun i _ => decide_eq_decide.2 (repeats_succ_iff key seen x xs i)
  rw [repeatPlacesFrom, hrange, List.filter_cons, List.filter_map, hrest]
  -- no place comes before the first one
  by_cases hx : key x ∈ seen
  · simp [hx]
  · simp [hx]

/-- Each place either repeats a key or is the first to have a key that was not seen. -/
theorem length_repeatPlacesFrom (key : α → β) (seen : List β) (xs : List α) :
    (repeatPlacesFrom key seen xs).length + ((xs.map key).toFinset \ seen.toFinset).card
      = xs.length := by
  induction xs generalizing seen with
  | nil => simp [repeatPlacesFrom]
  | cons x xs ih =>
    have hstep := ih (key x :: seen)
    show _ = xs.length + 1
    rw [repeatPlacesFrom_cons, List.length_append, List.length_map, List.map_cons,
      List.toFinset_cons]
    rw [List.toFinset_cons] at hstep
    by_cases hx : key x ∈ seen
    · -- one more place, and no new key
      have hmem : key x ∈ seen.toFinset := List.mem_toFinset.2 hx
      rw [Finset.insert_eq_of_mem hmem] at hstep
      rw [if_pos hx, Finset.insert_sdiff_of_mem _ hmem, List.length_singleton]
      omega
    · -- one more key, which the members behind it no longer bring in
      have hmem : key x ∉ seen.toFinset := fun h => hx (List.mem_toFinset.1 h)
      have hfirst : (insert (key x) (xs.map key).toFinset \ seen.toFinset).card
          = ((xs.map key).toFinset \ insert (key x) seen.toFinset).card + 1 := by
        rw [Finset.insert_sdiff_of_notMem _ hmem, Finset.sdiff_insert,
          ← Finset.erase_insert_eq_erase, Finset.card_erase_add_one (Finset.mem_insert_self _ _)]
      rw [if_neg hx, hfirst, List.length_nil]
      omega

/-- How many distinct keys a list has. -/
def distinct (key : α → β) (xs : List α) : Nat :=
  (xs.map key).toFinset.card

theorem length_repeatPlaces_add (key : α → β) (xs : List α) :
    (repeatPlaces key xs).length + distinct key xs = xs.length := by
  have h := length_repeatPlacesFrom key [] xs
  rwa [repeatPlacesFrom_nil, List.toFinset_nil, Finset.sdiff_empty] at h

theorem length_repeatPlaces (key : α → β) (xs : List α) :
    (repeatPlaces key xs).length = xs.length - distinct key xs := by
  have := length_repeatPlaces_add key xs
  omega

theorem repeatPlaces_eq_nil_iff (key : α → β) (xs : List α) :
    repeatPlaces key xs = [] ↔ (xs.map key).Nodup := by
  have hlength := length_repeatPlaces_add key xs
  rw [← Multiset.coe_nodup, ← Multiset.toFinset_card_eq_card_iff_nodup, Multiset.coe_card,
    List.length_map, ← List.length_eq_zero_iff]
  show _ ↔ distinct key xs = xs.length
  omega

theorem distinct_perm (key : α → β) {xs ys : List α} (h : xs.Perm ys) :
    distinct key ys = distinct key xs := by
  rw [distinct, distinct, List.toFinset_eq_of_perm _ _ (h.map key)]

end Places

/-! ## Repeated parameters -/

theorem repeats_map {α : Type} (key : α → String) (seen : List String) (xs : List α) :
    repeats seen (xs.map key) = (repeatPlacesFrom key seen xs).map fun i => key xs[i] := by
  induction xs generalizing seen with
  | nil => rfl
  | cons x xs ih =>
    rw [List.map_cons, repeats, repeatPlacesFrom_cons, List.map_append, List.map_map]
    split
    · rename_i hx
      -- a name that was seen is not put among the seen ones again
      have hseen : ∀ k, k ∈ key x :: seen ↔ k ∈ seen := by simpa using hx
      rw [ih, repeatPlacesFrom_congr hseen]
      rfl
    · rw [ih]
      rfl

/-! ## Repeated entries -/

/-- What makes two entries the same declaration. -/
def key (e : Entry) : String × String :=
  (e.typeName, e.name)

theorem sameKey_iff {e f : Entry} : sameKey e f = true ↔ key e = key f := by
  simp only [sameKey, Bool.and_eq_true, decide_eq_true_eq, key, Prod.mk.injEq]

/-- Whether the place `j` is the first one with the type and name of the entry at `i`. -/
structure IsFirst (es : List Entry) (i j : Fin es.length) : Prop where
  key_eq : key es[j] = key es[i]
  key_ne : ∀ k < j, key es[k] ≠ key es[i]

theorem exists_isFirst_of_find? {es : List Entry} {i : Fin es.length} {g : Entry}
    (h : es.find? (sameKey es[i]) = some g) : ∃ j, IsFirst es i j ∧ es[j] = g := by
  obtain ⟨hg, n, hn, rfl, hbefore⟩ := List.find?_eq_some_iff_getElem.1 h
  refine ⟨⟨n, hn⟩, ⟨(sameKey_iff.1 hg).symm, fun k hk heq => ?_⟩, rfl⟩
  have hne := hbefore k hk
  rw [Bool.not_eq_true', ← Bool.not_eq_true, sameKey_iff] at hne
  exact hne heq.symm

theorem find?_sameKey_eq_none_iff {e : Entry} {es : List Entry} :
    es.find? (sameKey e) = none ↔ key e ∉ es.map key := by
  rw [List.find?_eq_none, List.mem_map]
  simp only [sameKey_iff, not_exists, not_and]
  exact forall₂_congr fun f _ => not_congr eq_comm

/-- Step by step, a finding stands for each place with a key that came before, and names the
    file of the first entry that has it, counted from the entries before the list. -/
theorem forall₂_repeatedEntriesFrom (earlier es : List Entry) :
    List.Forall₂ (fun i f => ∃ g, (earlier ++ es).find? (sameKey es[i]) = some g ∧
        f = ⟨es[i].sourceFile, .repeatedEntry es[i].typeName es[i].name g.sourceFile⟩)
      (repeatPlacesFrom key (earlier.map key) es) (repeatedEntriesFrom earlier es) := by
  induction es generalizing earlier with
  | nil => exact .nil
  | cons e es ih =>
    have hseen : ∀ k, k ∈ (earlier ++ [e]).map key ↔ k ∈ key e :: earlier.map key := by
      simp [or_comm]
    have htail := ih (earlier ++ [e])
    rw [repeatPlacesFrom_congr hseen, List.append_assoc, List.singleton_append] at htail
    rw [repeatPlacesFrom_cons, repeatedEntriesFrom]
    cases hfind : earlier.find? (sameKey e) with
    | none =>
      rw [if_neg (find?_sameKey_eq_none_iff.1 hfind), List.nil_append]
      exact List.forall₂_map_left_iff.2 htail
    | some g =>
      have hseen : key e ∈ earlier.map key := by
        by_contra hnot
        rw [find?_sameKey_eq_none_iff.2 hnot] at hfind
        simp at hfind
      -- the first one with the key stands before the list, and stays first
      rw [if_pos hseen, List.singleton_append]
      refine .cons ⟨g, ?_, rfl⟩ (List.forall₂_map_left_iff.2 htail)
      rw [List.find?_append]
      exact congrArg (Option.or · _) hfind

/-! ## The report -/

/-- The documented parameters of an entry that it does not declare, in order. A methodmap
    has none. -/
def undeclaredTags (e : Entry) : List Doc.ParamTag :=
  if e.isMethodmap then [] else e.tags.param.filter fun t => t.name ∉ e.params.map Param.name

theorem repeatedParams_eq (es : List Entry) :
    repeatedParams es = es.flatMap fun e => (repeatPlaces Param.name e.params).map fun i =>
      ⟨e.sourceFile, .repeatedParam e.name e.params[i].name⟩ := by
  simp only [repeatedParams, repeats_map, repeatPlacesFrom_nil, List.map_map, Function.comp_def]

theorem undeclaredParams_eq (es : List Entry) :
    undeclaredParams es = es.flatMap fun e => (undeclaredTags e).map fun t =>
      ⟨e.sourceFile, .undeclaredParam e.name t.name⟩ := by
  induction es with
  | nil => rfl
  | cons e es ih =>
    rw [undeclaredParams] at ih ⊢
    rw [List.flatMap_cons, ← ih, undeclaredTags]
    cases hm : e.isMethodmap with
    | true => simp [hm]
    | false => simp [hm, List.filter_map, Function.comp_def]

theorem forall₂_repeatedEntries (es : List Entry) :
    List.Forall₂ (fun i f => ∃ j, IsFirst es i j ∧
        f = ⟨es[i].sourceFile, .repeatedEntry es[i].typeName es[i].name es[j].sourceFile⟩)
      (repeatPlaces key es) (repeatedEntries es) := by
  rw [← repeatPlacesFrom_nil]
  refine (forall₂_repeatedEntriesFrom [] es).imp ?_
  rintro i f ⟨g, hg, rfl⟩
  obtain ⟨j, hj, rfl⟩ := exists_isFirst_of_find? hg
  exact ⟨j, hj, rfl⟩

/-! ## Counts -/

/-- How many findings have a code. -/
def countCode (code : String) (fs : List Finding) : Nat :=
  fs.countP (·.problem.code = code)

theorem countCode_append (code : String) (fs gs : List Finding) :
    countCode code (fs ++ gs) = countCode code fs + countCode code gs :=
  List.countP_append ..

theorem countCode_of_forall {code own : String} {fs : List Finding}
    (h : ∀ f ∈ fs, f.problem.code = own) :
    countCode code fs = if own = code then fs.length else 0 := by
  rw [countCode]
  split
  · rename_i heq
    exact List.countP_eq_length.2 fun f hf => by simpa [h f hf] using heq
  · rename_i hne
    exact List.countP_eq_zero.2 fun f hf => by simpa [h f hf] using hne

theorem length_repeatedParams (es : List Entry) :
    (repeatedParams es).length
      = (es.map fun e => e.params.length - distinct Param.name e.params).sum := by
  simp only [repeatedParams_eq, List.length_flatMap, List.length_map, length_repeatPlaces]

theorem length_undeclaredParams (es : List Entry) :
    (undeclaredParams es).length = (es.map fun e => (undeclaredTags e).length).sum := by
  simp only [undeclaredParams_eq, List.length_flatMap, List.length_map]

theorem length_repeatedEntries (es : List Entry) :
    (repeatedEntries es).length = es.length - distinct key es := by
  rw [← (forall₂_repeatedEntries es).length_eq, length_repeatPlaces]

/-- Each check reports under a code of its own. -/
theorem countCode_findings (code : String) (es : List Entry) :
    countCode code (findings es) =
      (if "incscan::lint::duplicate-param" = code then (repeatedParams es).length else 0) +
      (if "incscan::lint::unknown-param-doc" = code then (undeclaredParams es).length else 0) +
      (if "incscan::lint::duplicate-entry" = code then (repeatedEntries es).length else 0) := by
  have hparams : ∀ f ∈ repeatedParams es, f.problem.code = "incscan::lint::duplicate-param" := by
    intro f hf
    rw [repeatedParams_eq] at hf
    obtain ⟨e, -, hf⟩ := List.mem_flatMap.1 hf
    obtain ⟨i, -, rfl⟩ := List.mem_map.1 hf
    rfl
  have hdocs : ∀ f ∈ undeclaredParams es,
      f.problem.code = "incscan::lint::unknown-param-doc" := by
    intro f hf
    rw [undeclaredParams_eq] at hf
    obtain ⟨e, -, hf⟩ := List.mem_flatMap.1 hf
    obtain ⟨t, -, rfl⟩ := List.mem_map.1 hf
    rfl
  have hentries : ∀ f ∈ repeatedEntries es,
      f.problem.code = "incscan::lint::duplicate-entry" := by
    have hcodes : List.Forall₂ (fun f _ =>
        f.problem.code = "incscan::lint::duplicate-entry" ∧ True)
        (repeatedEntries es) (repeatPlaces key es) := by
      refine (forall₂_repeatedEntries es).flip.imp ?_
      rintro f i ⟨j, -, rfl⟩
      exact ⟨rfl, trivial⟩
    exact ((List.forall₂_and_left _ _).1 hcodes).1
  rw [findings, countCode_append, countCode_append, countCode_of_forall hparams,
    countCode_of_forall hdocs, countCode_of_forall hentries]

theorem length_findings_perm {es es' : List Entry} (h : es.Perm es') :
    (findings es').length = (findings es).length := by
  simp only [findings, List.length_append, length_repeatedParams, length_undeclaredParams,
    length_repeatedEntries]
  rw [(h.map _).sum_eq, (h.map fun e => (undeclaredTags e).length).sum_eq, h.length_eq,
    distinct_perm key h]

theorem undeclaredTags_eq_nil_iff {e : Entry} :
    undeclaredTags e = [] ↔
      (e.isMethodmap = false → ∀ t ∈ e.tags.param, t.name ∈ e.params.map Param.name) := by
  rw [undeclaredTags]
  cases e.isMethodmap with
  | true => simp
  | false => simp

theorem findings_eq_nil_iff (es : List Entry) :
    findings es = [] ↔ (∀ e ∈ es, (e.params.map Param.name).Nodup) ∧
      (∀ e ∈ es, e.isMethodmap = false → ∀ t ∈ e.tags.param, t.name ∈ e.params.map Param.name) ∧
      (es.map key).Nodup := by
  have hentries : repeatedEntries es = [] ↔ (es.map key).Nodup := by
    rw [← repeatPlaces_eq_nil_iff, ← List.length_eq_zero_iff, ← List.length_eq_zero_iff,
      (forall₂_repeatedEntries es).length_eq]
  rw [findings, List.append_eq_nil_iff, List.append_eq_nil_iff, hentries, and_assoc,
    repeatedParams_eq, undeclaredParams_eq]
  simp only [List.flatMap_eq_nil_iff, List.map_eq_nil_iff, repeatPlaces_eq_nil_iff,
    undeclaredTags_eq_nil_iff]

/-- **The lint report.** A finding stands for each place of a parameter list that repeats a
    name, for each documented parameter that is not declared (methodmaps apart), and for each
    entry whose type and name came before, stamped with its own file and naming the file of
    the first such entry. The counts follow, nothing is reported exactly for clean entries,
    and the number of findings is the same in every order. -/
theorem findings_exact (es : List Entry) :
    (∃ rs, findings es =
        (es.flatMap fun e => (repeatPlaces Param.name e.params).map fun i =>
          ⟨e.sourceFile, .repeatedParam e.name e.params[i].name⟩) ++
        (es.flatMap fun e => (undeclaredTags e).map fun t =>
          ⟨e.sourceFile, .undeclaredParam e.name t.name⟩) ++ rs ∧
      List.Forall₂ (fun i f => ∃ j, IsFirst es i j ∧
          f = ⟨es[i].sourceFile, .repeatedEntry es[i].typeName es[i].name es[j].sourceFile⟩)
        (repeatPlaces key es) rs) ∧
    -- the counts, for each entry and over all
    (∀ e ∈ es, (repeatPlaces Param.name e.params).length
      = e.params.length - distinct Param.name e.params) ∧
    countCode "incscan::lint::duplicate-param" (findings es)
      = (es.map fun e => e.params.length - distinct Param.name e.params).sum ∧
    countCode "incscan::lint::unknown-param-doc" (findings es)
      = (es.map fun e => (undeclaredTags e).length).sum ∧
    countCode "incscan::lint::duplicate-entry" (findings es) = es.length - distinct key es ∧
    (findings es = [] ↔ (∀ e ∈ es, (e.params.map Param.name).Nodup) ∧
      (∀ e ∈ es, e.isMethodmap = false → ∀ t ∈ e.tags.param, t.name ∈ e.params.map Param.name) ∧
      (es.map key).Nodup) ∧
    ∀ es', es.Perm es' → (findings es').length = (findings es).length := by
  refine ⟨⟨repeatedEntries es, ?_, forall₂_repeatedEntries es⟩,
    fun e _ => length_repeatPlaces Param.name e.params, ?_, ?_, ?_, findings_eq_nil_iff es,
    fun es' h => length_findings_perm h⟩
  · rw [← repeatedParams_eq, ← undeclaredParams_eq]
    rfl
  · rw [countCode_findings, length_repeatedParams]
    simp
  · rw [countCode_findings, length_undeclaredParams]
    simp
  · rw [countCode_findings, length_repeatedEntries]
    simp

/-- A native function of a file, with parameters of these names and one documented
    parameter. -/
def sampleNative (file : String) (params : List String) (doc : String) : Entry where
  name := "Same"
  shape := .function .native "void" (params.map fun n => ⟨n, "int", none, ""⟩)
  comment := ""
  tags := { param := [⟨doc, ""⟩] }
  fullDeclaration := ""
  sourceFile := file

/-- One declaration in three files, in two of them with a parameter three times and in the
    other with a documented parameter that is not there. -/
def sampleThrice : List Entry :=
  [sampleNative "a.inc" ["x", "x", "x"] "x", sampleNative "b.inc" ["x", "y"] "z",
    sampleNative "c.inc" ["x", "x", "x"] "x"]

theorem findings_exact_thrice :
    sampleThrice.Perm sampleThrice.reverse ∧
    (findings sampleThrice.reverse).length = (findings sampleThrice).length ∧
    countCode "incscan::lint::duplicate-param" (findings sampleThrice) = 4 ∧
    countCode "incscan::lint::unknown-param-doc" (findings sampleThrice) = 1 ∧
    countCode "incscan::lint::duplicate-entry" (findings sampleThrice) = 2 := by
  have hreverse : sampleThrice.Perm sampleThrice.reverse := sampleThrice.reverse_perm.symm
  obtain ⟨-, -, hparams, hdocs, hentries, -, hperm⟩ := findings_exact sampleThrice
  exact ⟨hreverse, hperm _ hreverse, hparams.trans (by decide), hdocs.trans (by decide),
    hentries.trans (by decide)⟩

end PawnApi.Lint
