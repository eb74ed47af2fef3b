/-
  PawnApi.Proofs.Selection

  The files that a manifest selects.

  Names that hold no slash are the components of the path they make
  (`segments_relativePath`), and the shown path is that path behind the directory's
  (`shownPath_eq`). So the order of a walk is the component-wise order of the relative paths,
  two ways of names are shown as two paths, and leaving out what a manifest does not ask for
  keeps both.
-/
import PawnApi.Proofs.Walks
import PawnApi.Scan.Discovery

namespace PawnApi

/-! ## Components of a path -/

namespace Path

theorem segments_of_not_mem {w : List Char} (h : '/' ∉ w) : segments w = [w] := by
  induction w with
  | nil => rfl
  | cons c w ih =>
    simp only [List.mem_cons, not_or] at h
    rw [segments, if_neg (Ne.symm h.1), ih h.2]

theorem segments_append_slash {w : List Char} (h : '/' ∉ w) (s : List Char) :
    segments (w ++ '/' :: s) = w :: segments s := by
  induction w with
  | nil => rw [List.nil_append, segments, if_pos rfl]
  | cons c w ih =>
    simp only [List.mem_cons, not_or] at h
    rw [List.cons_append, segments, if_neg (Ne.symm h.1), ih h.2]

/-- The order of paths by their components, each compared by its bytes. -/
def Before (p q : List Char) : Prop :=
  List.Lex (fun u v => Name.Before (String.ofList u) (String.ofList v)) (segments p) (segments q)

/-- A path as it stands in front of a name below it. -/
def stem (base : List Char) : List Char :=
  if base.isEmpty || base.getLast? = some '/' then base else base ++ ['/']

theorem join_of_not_isAbsolute {p : List Char} (h : isAbsolute p = false) (base : List Char) :
    join base p = stem base ++ p := by
  rw [join, h, stem]
  split
  · simp_all
  · split <;> simp

end Path

/-- A name that can stand in a path: not empty and without a slash. -/
structure Name.IsProper (n : Name) : Prop where
  ne_nil : n.toList ≠ []
  noSlash : '/' ∉ n.toList

namespace Name.IsProper

variable {n : Name}

theorem isAbsolute_eq (h : n.IsProper) : Path.isAbsolute n.toList = false := by
  rw [Path.isAbsolute, beq_eq_false_iff_ne]
  exact fun hs => h.noSlash (List.mem_of_head? hs)

theorem join_eq (h : n.IsProper) (base : List Char) :
    Path.join base n.toList = Path.stem base ++ n.toList :=
  Path.join_of_not_isAbsolute h.isAbsolute_eq base

/-- A path that ends in a name gets a slash before the next one. -/
theorem stem_join (h : n.IsProper) (base : List Char) :
    Path.stem (Path.join base n.toList) = Path.stem base ++ n.toList ++ ['/'] := by
  rw [h.join_eq, Path.stem, if_neg]
  intro hends
  rw [Bool.or_eq_true, List.isEmpty_iff, decide_eq_true_eq,
    List.getLast?_append_of_ne_nil _ h.ne_nil] at hends
  rcases hends with hempty | hslash
  · exact h.ne_nil (List.append_eq_nil_iff.1 hempty).2
  · exact h.noSlash (List.mem_of_getLast? hslash)

end Name.IsProper

namespace Discovery

theorem relativePath_singleton (n : Name) : relativePath [n] = n.toList := by
  simp [relativePath]

theorem relativePath_cons_cons (n k : Name) (ns : List Name) :
    relativePath (n :: k :: ns) = n.toList ++ '/' :: relativePath (k :: ns) := by
  simp [relativePath, String.toList_intercalate]

/-- Names that make a relative path. -/
structure IsWay (ns : List Name) : Prop where
  ne_nil : ns ≠ []
  isProper : ∀ n ∈ ns, n.IsProper

theorem IsWay.tail {n k : Name} {ns : List Name} (h : IsWay (n :: k :: ns)) : IsWay (k :: ns) :=
  ⟨by simp, fun l hl => h.isProper l (List.mem_cons_of_mem _ hl)⟩

theorem segments_relativePath {ns : List Name} (h : IsWay ns) :
    Path.segments (relativePath ns) = ns.map String.toList := by
  induction ns with
  | nil => exact absurd rfl h.ne_nil
  | cons n ns ih =>
    have hn := (h.isProper n (by simp)).noSlash
    cases ns with
    | nil => rw [relativePath_singleton, Path.segments_of_not_mem hn, List.map_singleton]
    | cons k ns =>
      rw [relativePath_cons_cons, Path.segments_append_slash hn, List.map_cons, ih h.tail]

/-- The shown path is the relative path behind the directory's. -/
theorem shownPath_eq (root : List Char) {ns : List Name} (h : IsWay ns) :
    shownPath root ns = Path.stem root ++ relativePath ns := by
  -- the names are taken one by one, so what is shown for the rest starts at a longer path
  induction ns generalizing root with
  | nil => exact absurd rfl h.ne_nil
  | cons n ns ih =>
    have hn := h.isProper n (by simp)
    have hstep : shownPath root (n :: ns) = shownPath (Path.join root n.toList) ns := rfl
    cases ns with
    | nil =>
      rw [hstep, relativePath_singleton, ← hn.join_eq]
      rfl
    | cons k ns =>
      rw [hstep, ih _ h.tail, hn.stem_join, relativePath_cons_cons]
      simp

/-- Ways are told apart by the path that is shown for them. -/
theorem eq_of_shownPath_eq {root : List Char} {ns ms : List Name} (hns : IsWay ns)
    (hms : IsWay ms) (h : shownPath root ns = shownPath root ms) : ns = ms := by
  rw [shownPath_eq root hns, shownPath_eq root hms] at h
  have hsegments := congrArg Path.segments (List.append_cancel_left h)
  rw [segments_relativePath hns, segments_relativePath hms] at hsegments
  exact List.map_injective_iff.2 (fun _ _ => String.toList_inj.1) hsegments

/-- The order of the names is the order of the paths they make. -/
theorem before_relativePath {ns ms : List Name} (hns : IsWay ns) (hms : IsWay ms)
    (h : List.Lex Name.Before ns ms) : Path.Before (relativePath ns) (relativePath ms) := by
  rw [Path.Before, segments_relativePath hns, segments_relativePath hms]
  clear hns hms
  induction h with
  | nil => exact .nil
  | cons _ ih => exact .cons ih
  | rel hlt =>
    refine .rel ?_
    rwa [String.ofList_toList, String.ofList_toList]

end Discovery

/-! ## What is selected -/

/-- A disk that lists each location once, by names that can stand in a path. -/
structure Disk.WellFormed (d : Disk) : Prop where
  nodup : (d.items.map (·.1)).Nodup
  isProper : ∀ e ∈ d.items, ∀ n ∈ e.1, n.IsProper

theorem Disk.Reaches.isWay {d : Disk} (hd : d.WellFormed) {outer : List Location}
    {path : List Char} {dir : Location} {ns : List Name} (h : d.Reaches outer path dir ns) :
    Discovery.IsWay ns := by
  have hlisted : ∀ {dir : Location} {n : Name}, d.Lists dir n → n.IsProper := by
    rintro dir n ⟨-, e, he, heq⟩
    exact hd.isProper e he n (by simp [heq])
  induction h with
  | file hn _ =>
    refine ⟨by simp, fun n h => ?_⟩
    rw [List.mem_singleton.1 h]
    exact hlisted hn
  | enter hn _ _ ih =>
    refine ⟨by simp, fun n h => ?_⟩
    rcases List.mem_cons.1 h with rfl | h
    · exact hlisted hn
    · exact ih.isProper n h

theorem Manifest.hasExtension_iff {m : Manifest} {path : List Char} :
    m.hasExtension path = true ↔ ∃ e ∈ m.extensions, Path.extension? path = some e.toList := by
  rw [hasExtension]
  cases Path.extension? path with
  | none => simp
  | some w =>
    simp only [List.any_eq_true, decide_eq_true_eq, Option.some.injEq]
    exact exists_congr fun e => and_congr_right fun _ => eq_comm

namespace Discovery

/-- The ways to the files that a manifest selects from a directory. -/
def selected (d : Disk) (m : Manifest) (root : List Char) (dir : Location) : List (List Name) :=
  (d.walk [] root dir).filter (isWanted m root)

theorem filesIn_eq {d : Disk} {root : List Char} {dir : Location}
    (hroot : d.find root = .ok (dir, .dir)) (m : Manifest) :
    filesIn d m root
      = (selected d m root dir).map fun ns => SourceFile.ofPath (shownPath root ns) := by
  rw [filesIn, reached, hroot, selected]

theorem mem_selected_iff {d : Disk} {m : Manifest} {root : List Char} {dir : Location}
    {ns : List Name} : ns ∈ selected d m root dir ↔ d.Reaches [] root dir ns ∧
      m.isExcluded (relativePath ns) = false ∧
      ∃ e ∈ m.extensions, Path.extension? (shownPath root ns) = some e.toList := by
  rw [selected, List.mem_filter, Disk.mem_walk_iff, isWanted, Bool.and_eq_true,
    Manifest.hasExtension_iff, Bool.not_eq_true']

theorem pairwise_selected (d : Disk) (m : Manifest) (root : List Char) (dir : Location) :
    (selected d m root dir).Pairwise (List.Lex Name.Before) :=
  (d.pairwise_walk [] root dir).filter _

/-- **Discovery.** In an existing directory, the files listed are those the walk reaches that
    the manifest does not exclude and whose extension it asks for, each path once, in strictly
    increasing component-wise byte order of the relative paths. The order in which the disk
    lists its items does not matter. -/
theorem filesIn_exact {d : Disk} (hd : d.WellFormed) {root : List Char} {dir : Location}
    (hroot : d.find root = .ok (dir, .dir)) (m : Manifest) :
    (∃ ways : List (List Name),
      filesIn d m root = ways.map (fun ns => SourceFile.ofPath (shownPath root ns)) ∧
      (∀ ns, ns ∈ ways ↔ d.Reaches [] root dir ns ∧ m.isExcluded (relativePath ns) = false ∧
        ∃ e ∈ m.extensions, Path.extension? (shownPath root ns) = some e.toList) ∧
      ways.Pairwise fun ns ms => Path.Before (relativePath ns) (relativePath ms)) ∧
    ((filesIn d m root).map SourceFile.path).Nodup ∧
    ∀ items : List (Location × Item), items.Perm d.items →
      filesIn { d with items := items } m root = filesIn d m root := by
  have hways : ∀ ns ∈ selected d m root dir, IsWay ns := fun ns hns =>
    (mem_selected_iff.1 hns).1.isWay hd
  refine ⟨⟨selected d m root dir, filesIn_eq hroot m, fun ns => mem_selected_iff, ?_⟩, ?_, ?_⟩
  · refine (pairwise_selected d m root dir).imp_of_mem fun hns hms hlex => ?_
    exact before_relativePath (hways _ hns) (hways _ hms) hlex
  · rw [filesIn_eq hroot, List.map_map, List.Nodup, List.pairwise_map]
    refine (pairwise_selected d m root dir).imp_of_mem fun hns hms hlex heq => ?_
    -- two ways in order are not the same way, so they are not shown alike
    obtain rfl := eq_of_shownPath_eq (hways _ hns) (hways _ hms) heq
    exact List.lex_irrefl Name.Before.irrefl _ hlex
  · intro items hperm
    have hsame : d.SameContent { d with items := items } := .of_perm hd.nodup hperm
    rw [filesIn_eq hroot, filesIn_eq (hsame.find_eq_ok hroot), selected, selected, hsame.walk_eq]

/-- A directory with a file and a directory whose names begin alike: as texts `a.inc` comes
    before `a/b.inc`, by components after it. -/
def sampleDisk : Disk where
  items := [(["i", "a.inc"], .file []), (["i"], .dir), (["i", "a", "b.inc"], .file []),
    (["i", "a"], .dir)]
  here := []

/-- The file in the inner directory is found by its path, and no listing of the disk makes a
    difference. -/
theorem filesIn_exact_sample :
    sampleDisk.WellFormed ∧ sampleDisk.find "i".toList = .ok (["i"], .dir) ∧
    SourceFile.ofPath "i/a/b.inc".toList ∈ filesIn sampleDisk {} "i".toList ∧
    ((filesIn sampleDisk {} "i".toList).map SourceFile.path).Nodup ∧
    filesIn { sampleDisk with items := sampleDisk.items.reverse } {} "i".toList
      = filesIn sampleDisk {} "i".toList := by
  have hwell : sampleDisk.WellFormed := by
    have hnames : ∀ e ∈ sampleDisk.items, ∀ n ∈ e.1, n.toList ≠ [] ∧ '/' ∉ n.toList := by decide
    exact ⟨by decide, fun e he n hn => ⟨(hnames e he n hn).1, (hnames e he n hn).2⟩⟩
  have hi : sampleDisk.item? ["i"] = some .dir := rfl
  have ha : sampleDisk.item? ["i", "a"] = some .dir := rfl
  have hlooks : sampleDisk.LooksUp [] "i" ∧ sampleDisk.LooksUp ["i"] "a" := by
    constructor <;> constructor <;> decide
  -- both paths lead through directories only
  have hfind : sampleDisk.find "i".toList = .ok (["i"], .dir) := by
    have hspot : sampleDisk.spot .followed "i".toList = .ok ⟨["i"], false⟩ :=
      Disk.spot_eq_ok_iff.2
        ⟨by constructor <;> decide, .dir hlooks.1 rfl hi (.done (by decide))⟩
    exact Disk.find_of_spot hspot hi fun _ => rfl
  have hinner : sampleDisk.find "i/a".toList = .ok (["i", "a"], .dir) := by
    have hleads : Disk.Leads sampleDisk .followed Disk.maxLinks [] false ["i", "a"]
        ⟨["i", "a"], false⟩ :=
      .dir hlooks.1 rfl hi (.dir hlooks.2 rfl ha (.done (by decide)))
    have hspot : sampleDisk.spot .followed "i/a".toList = .ok ⟨["i", "a"], false⟩ :=
      Disk.spot_eq_ok_iff.2 ⟨by constructor <;> decide, hleads⟩
    exact Disk.find_of_spot hspot ha fun _ => rfl
  have hreach : sampleDisk.Reaches [] "i".toList ["i"] ["a", "b.inc"] := by
    have hlists : sampleDisk.Lists ["i"] "a" := ⟨rfl, (["i", "a"], .dir), by decide, rfl⟩
    have hlists' : sampleDisk.Lists ["i", "a"] "b.inc" :=
      ⟨rfl, (["i", "a", "b.inc"], .file []), by decide, rfl⟩
    exact .enter hlists (.own rfl hinner) (.file hlists' (.own rfl))
  obtain ⟨⟨ways, hfiles, hways, -⟩, hnodup, hperm⟩ := filesIn_exact hwell hfind {}
  refine ⟨hwell, hfind, ?_, hnodup, hperm _ (List.reverse_perm _)⟩
  rw [hfiles]
  refine List.mem_map.2 ⟨["a", "b.inc"], (hways _).2 ⟨hreach, rfl, "inc", by simp, ?_⟩, ?_⟩
  · decide +kernel
  · rfl

end Discovery

end PawnApi
