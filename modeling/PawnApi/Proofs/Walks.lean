/-
  PawnApi.Proofs.Walks

  What a walk finds, and in which order.

  At each name that a directory gives away the walk finds a file (`HoldsFile`), enters a directory
  (`Enters`), or passes on. `Reaches` puts these steps together and says nothing about the
  order they are taken in. A walk finds exactly what is reached (`mem_walk_iff`), in strictly
  increasing order of the names on the way, compared by bytes (`pairwise_walk`). A list is
  fixed by these two facts, so a walk depends on what stands where and not on how the disk
  lists it (`SameContent.walk_eq`).
-/
import Mathlib.Data.List.Basic
import PawnApi.Disk.Walk
import PawnApi.Proofs.Encoding
import PawnApi.Proofs.Growth

namespace PawnApi

/-! ## Names in the order of their bytes -/

namespace Name

/-- Whether the bytes of a name come before those of another. -/
def Before (a b : Name) : Prop :=
  Text.Utf8.encode a < Text.Utf8.encode b

theorem isBefore_iff {a b : Name} : a.isBefore b = true ↔ Before a b :=
  decide_eq_true_iff

theorem Before.irrefl (a : Name) : ¬ Before a a :=
  List.lt_irrefl _

theorem Before.trans {a b c : Name} (h : Before a b) (h' : Before b c) : Before a c :=
  List.lt_trans h h'

theorem Before.of_not {a b : Name} (hne : a ≠ b) (h : ¬ Before a b) : Before b a := by
  rcases Std.lt_trichotomy (Text.Utf8.encode a) (Text.Utf8.encode b) with hlt | heq | hgt
  · exact absurd hlt h
  · exact absurd (Text.Utf8.encode_injective heq) hne
  · exact hgt

theorem pairwise_insert {n : Name} {ms : List Name} (h : ms.Pairwise Before) :
    (insert n ms).Pairwise Before := by
  induction ms with
  | nil => simp [insert]
  | cons m ms ih =>
    obtain ⟨hm, hms⟩ := List.pairwise_cons.1 h
    rw [insert]
    split
    · exact h
    · rename_i hne
      split
      · -- the name goes here, before all that comes after `m`
        rename_i hbefore
        have hnm := isBefore_iff.1 hbefore
        refine List.pairwise_cons.2 ⟨fun k hk => ?_, h⟩
        rcases List.mem_cons.1 hk with rfl | hk
        · exact hnm
        · exact hnm.trans (hm k hk)
      · rename_i hnot
        refine List.pairwise_cons.2 ⟨fun k hk => ?_, ih hms⟩
        rcases mem_insert.1 hk with rfl | hk
        · exact .of_not hne (fun hb => hnot (isBefore_iff.2 hb))
        · exact hm k hk

theorem pairwise_sort (ns : List Name) : (sort ns).Pairwise Before := by
  induction ns with
  | nil => exact .nil
  | cons n ns ih => exact pairwise_insert ih

end Name

namespace Disk

variable {d d' : Disk} {outer : List Location} {path : List Char} {dir : Location} {n : Name}

/-! ## Single steps -/

/-- Whether a directory gives a name away: it can be listed, and the name stands in it. -/
def Lists (d : Disk) (dir : Location) (n : Name) : Prop :=
  d.refusal? .list dir = none ∧ ∃ e ∈ d.items, e.1 = dir ++ [n]

theorem nameIn?_eq_some_iff {key : Location} : nameIn? dir key = some n ↔ key = dir ++ [n] := by
  rw [nameIn?]
  constructor
  · intro h
    split at h
    · rename_i hdir
      obtain ⟨front, rfl⟩ := List.getLast?_eq_some_iff.1 h
      rw [← hdir, List.dropLast_concat]
    · simp at h
  · rintro rfl
    simp

theorem mem_names_iff : n ∈ d.names dir ↔ ∃ e ∈ d.items, e.1 = dir ++ [n] := by
  simp only [names, Name.mem_sort, List.mem_filterMap, nameIn?_eq_some_iff]

theorem mem_listed_iff : n ∈ d.listed dir ↔ d.Lists dir n := by
  rw [listed, Lists, ← mem_names_iff]
  cases d.refusal? .list dir <;> simp

theorem pairwise_listed (d : Disk) (dir : Location) : (d.listed dir).Pairwise Name.Before := by
  rw [listed]
  split
  · exact .nil
  · exact Name.pairwise_sort _

/-- A name at which the walk finds a file: the file itself or a link to one. -/
inductive HoldsFile (d : Disk) (path : List Char) (dir : Location) (n : Name) : Prop where
  | own {content : List UInt8} (hi : d.item? (dir ++ [n]) = some (.file content))
  | linked {target : String} {l : Location} {content : List UInt8}
      (hi : d.item? (dir ++ [n]) = some (.link target))
      (hf : d.find (Path.join path n.toList) = .ok (l, .file content))

/-- A name at which the walk enters a directory: one that can be opened by its path, or a
    link to one that the walk is not in. -/
inductive Enters (d : Disk) (outer : List Location) (path : List Char) (dir : Location)
    (n : Name) : Location → Prop where
  | own {l : Location} (hi : d.item? (dir ++ [n]) = some .dir)
      (hf : d.find (Path.join path n.toList) = .ok (l, .dir)) :
      Enters d outer path dir n (dir ++ [n])
  | linked {target : String} {next : Location} (hi : d.item? (dir ++ [n]) = some (.link target))
      (hf : d.find (Path.join path n.toList) = .ok (next, .dir)) (hnew : next ∉ dir :: outer) :
      Enters d outer path dir n next

/-- What the walk finds at one name. -/
def visit (d : Disk) (outer : List Location) (path : List Char) (dir : Location) (n : Name) :
    List (List Name) :=
  let way := Path.join path n.toList
  match d.item? (dir ++ [n]) with
  | none => []
  | some (.file _) => [[n]]
  | some .dir =>
    if d.isDir way then (d.walk (dir :: outer) way (dir ++ [n])).map (n :: ·) else []
  | some (.link _) =>
    match d.find way with
    | .ok (_, .file _) => [[n]]
    | .ok (target, .dir) =>
      if (dir :: outer).contains target then []
      else (d.walk (dir :: outer) way target).map (n :: ·)
    | _ => []

theorem walk_eq (d : Disk) (outer : List Location) (path : List Char) (dir : Location) :
    d.walk outer path dir = (d.listed dir).flatMap (d.visit outer path dir) := by
  rw [walk]
  congr 1
  funext n
  rw [visit]
  split <;> rename_i hi <;> simp only [hi]
  split <;> rename_i hf <;> simp only [hf, List.contains_iff_mem]

theorem mem_walk_iff_exists_visit {ns : List Name} :
    ns ∈ d.walk outer path dir ↔ ∃ n, d.Lists dir n ∧ ns ∈ d.visit outer path dir n := by
  rw [walk_eq, List.mem_flatMap]
  simp only [mem_listed_iff]

theorem HoldsFile.visit_eq (h : d.HoldsFile path dir n) : d.visit outer path dir n = [[n]] := by
  cases h with
  | own hi => simp only [visit, hi]
  | linked hi hf => simp only [visit, hi, hf]

theorem Enters.visit_eq {next : Location} (h : d.Enters outer path dir n next) :
    d.visit outer path dir n
      = (d.walk (dir :: outer) (Path.join path n.toList) next).map (n :: ·) := by
  cases h with
  | own hi hf => simp only [visit, hi, isDir_iff.2 ⟨_, hf⟩, if_true]
  | linked hi hf hnew => simp only [visit, hi, hf, List.contains_iff_mem, if_neg hnew]

/-- All that can happen at a name. -/
theorem visit_cases (d : Disk) (outer : List Location) (path : List Char) (dir : Location)
    (n : Name) : d.visit outer path dir n = [] ∨ d.HoldsFile path dir n ∨
      ∃ next, d.Enters outer path dir n next := by
  cases hi : d.item? (dir ++ [n]) with
  | none => exact .inl (by simp only [visit, hi])
  | some i =>
    cases i with
    | file content => exact .inr (.inl (.own hi))
    | dir =>
      by_cases hopen : d.isDir (Path.join path n.toList) = true
      · obtain ⟨l, hf⟩ := isDir_iff.1 hopen
        exact .inr (.inr ⟨_, .own hi hf⟩)
      · -- its path is too long or goes through too many links
        exact .inl (by simp only [visit, hi, if_neg hopen])
    | link target =>
      cases hf : d.find (Path.join path n.toList) with
      | error fault =>
        -- the link leads nowhere
        exact .inl (by simp only [visit, hi, hf])
      | ok found =>
        obtain ⟨l, j⟩ := found
        cases j with
        | file content => exact .inr (.inl (.linked hi hf))
        | dir =>
          by_cases hback : l ∈ dir :: outer
          · -- the link leads back to a directory that the walk is in
            exact .inl (by simp only [visit, hi, hf, List.contains_iff_mem, if_pos hback])
          · exact .inr (.inr ⟨l, .linked hi hf hback⟩)
        | link target => exact .inl (by simp only [visit, hi, hf])

/-- A walk is followed down: what holds of a directory where it holds of those entered
    from it holds of every directory. -/
theorem walk_induction {motive : List Location → List Char → Location → Prop}
    (step : ∀ outer path dir, (∀ n next, d.Enters outer path dir n next →
      motive (dir :: outer) (Path.join path n.toList) next) → motive outer path dir)
    (outer : List Location) (path : List Char) (dir : Location) : motive outer path dir := by
  induction outer, path, dir using walk.induct d with
  | case1 outer path dir own linked =>
    refine step outer path dir fun n next h => ?_
    cases h with
    | own hi _ => exact own n hi
    | linked _ hf hnew => exact linked n next hf hnew

/-! ## What is reached -/

/-- The names that lead to a file that the walk comes to from a directory. -/
inductive Reaches (d : Disk) : List Location → List Char → Location → List Name → Prop where
  | file {outer : List Location} {path : List Char} {dir : Location} {n : Name}
      (hn : d.Lists dir n) (h : d.HoldsFile path dir n) : Reaches d outer path dir [n]
  | enter {outer : List Location} {path : List Char} {dir next : Location} {n : Name}
      {ns : List Name} (hn : d.Lists dir n) (h : d.Enters outer path dir n next)
      (hr : Reaches d (dir :: outer) (Path.join path n.toList) next ns) :
      Reaches d outer path dir (n :: ns)

theorem mem_walk_iff {ns : List Name} :
    ns ∈ d.walk outer path dir ↔ d.Reaches outer path dir ns := by
  constructor
  · induction outer, path, dir using walk_induction (d := d) generalizing ns with
    | step outer path dir ih =>
      intro h
      obtain ⟨n, hn, h⟩ := mem_walk_iff_exists_visit.1 h
      rcases visit_cases d outer path dir n with hnone | hfile | ⟨next, hnext⟩
      · simp [hnone] at h
      · rw [hfile.visit_eq, List.mem_singleton] at h
        exact h ▸ .file hn hfile
      · rw [hnext.visit_eq] at h
        obtain ⟨ns, hns, rfl⟩ := List.mem_map.1 h
        exact .enter hn hnext (ih n next hnext hns)
  · intro h
    induction h with
    | file hn h =>
      refine mem_walk_iff_exists_visit.2 ⟨_, hn, ?_⟩
      rw [h.visit_eq]
      exact List.mem_singleton_self _
    | enter hn h _ ih =>
      refine mem_walk_iff_exists_visit.2 ⟨_, hn, ?_⟩
      rw [h.visit_eq]
      exact List.mem_map_of_mem ih

/-! ## The order -/

/-- What is found at a name is led to by that name. -/
theorem exists_eq_cons_of_mem_visit {ns : List Name} (h : ns ∈ d.visit outer path dir n) :
    ∃ ms, ns = n :: ms := by
  rcases visit_cases d outer path dir n with hnone | hfile | ⟨next, hnext⟩
  · simp [hnone] at h
  · rw [hfile.visit_eq, List.mem_singleton] at h
    exact ⟨[], h⟩
  · rw [hnext.visit_eq] at h
    obtain ⟨ms, -, rfl⟩ := List.mem_map.1 h
    exact ⟨ms, rfl⟩

theorem pairwise_walk (d : Disk) (outer : List Location) (path : List Char) (dir : Location) :
    (d.walk outer path dir).Pairwise (List.Lex Name.Before) := by
  induction outer, path, dir using walk_induction (d := d) with
  | step outer path dir ih =>
    rw [walk_eq, List.pairwise_flatMap]
    constructor
    · intro n _
      rcases visit_cases d outer path dir n with hnone | hfile | ⟨next, hnext⟩
      · rw [hnone]
        exact .nil
      · rw [hfile.visit_eq]
        exact List.pairwise_singleton _ _
      · -- below one name the order is that of the directory entered
        rw [hnext.visit_eq, List.pairwise_map]
        exact (ih n next hnext).imp .cons
    · -- between two names their own order decides
      refine (d.pairwise_listed dir).imp fun hnm ns hns ms hms => ?_
      obtain ⟨ns, rfl⟩ := exists_eq_cons_of_mem_visit hns
      obtain ⟨ms, rfl⟩ := exists_eq_cons_of_mem_visit hms
      exact .rel hnm

/-- A strictly increasing list is fixed by its members. -/
theorem eq_of_pairwise_of_mem_iff {xs ys : List (List Name)}
    (hx : xs.Pairwise (List.Lex Name.Before)) (hy : ys.Pairwise (List.Lex Name.Before))
    (h : ∀ ns, ns ∈ xs ↔ ns ∈ ys) : xs = ys := by
  have hirrefl : ∀ ns, ¬ List.Lex Name.Before ns ns := List.lex_irrefl Name.Before.irrefl
  have hnodup : ∀ zs : List (List Name), zs.Pairwise (List.Lex Name.Before) → zs.Nodup := by
    intro zs hz
    refine hz.imp ?_
    rintro ns _ hlex rfl
    exact hirrefl ns hlex
  refine List.Perm.eq_of_pairwise (fun a b _ _ hab hba => ?_) hx hy
    ((List.perm_ext_iff_of_nodup (hnodup xs hx) (hnodup ys hy)).2 h)
  have haa : List.Lex Name.Before a a := List.lex_trans (fun h h' => h.trans h') hab hba
  exact absurd haa (hirrefl a)

/-! ## How the disk is listed -/

theorem lookup_eq_some_iff_mem {es : List (Location × Item)} (h : (es.map (·.1)).Nodup)
    {l : Location} {i : Item} : es.lookup l = some i ↔ (l, i) ∈ es := by
  rw [List.lookup_eq_some_iff]
  constructor
  · rintro ⟨es₁, es₂, rfl, -⟩
    simp
  · intro hmem
    obtain ⟨es₁, es₂, rfl⟩ := List.append_of_mem hmem
    refine ⟨es₁, es₂, rfl, fun e he => bne_iff_ne.2 ?_⟩
    rw [List.map_append, List.map_cons] at h
    exact fun heq => (List.nodup_append.1 h).2.2 e.1 (List.mem_map_of_mem he) l (by simp) heq.symm

/-- Disks with the same items at the same locations, seen from the same place, that refuse
    the same. -/
structure SameContent (d d' : Disk) : Prop where
  here_eq : d'.here = d.here
  lost_eq : d'.lost = d.lost
  refusals_eq : d'.refusals = d.refusals
  lookup_eq : ∀ l, d'.items.lookup l = d.items.lookup l

namespace SameContent

theorem symm (h : SameContent d d') : SameContent d' d :=
  ⟨h.here_eq.symm, h.lost_eq.symm, h.refusals_eq.symm, fun l => (h.lookup_eq l).symm⟩

/-- The order in which a disk lists its items means nothing if no location is listed twice. -/
theorem of_perm {items : List (Location × Item)} (hnodup : (d.items.map (·.1)).Nodup)
    (hperm : items.Perm d.items) : SameContent d { d with items := items } := by
  refine ⟨rfl, rfl, rfl, fun l => Option.ext fun i => ?_⟩
  rw [lookup_eq_some_iff_mem ((hperm.map _).nodup_iff.2 hnodup), lookup_eq_some_iff_mem hnodup,
    hperm.mem_iff]

theorem item?_eq (h : SameContent d d') (l : Location) : d'.item? l = d.item? l := by
  rw [item?, item?, h.lookup_eq]

theorem grows (h : SameContent d d') : Grows d d' :=
  ⟨h.here_eq, h.lost_eq, h.refusals_eq, fun l => .inl (h.item?_eq l)⟩

theorem find_eq_ok (h : SameContent d d') {p : List Char} {x : Location × Item}
    (hf : d.find p = .ok x) : d'.find p = .ok x := by
  obtain ⟨s, hs, -⟩ := exists_spot_of_find hf
  have harrive : d'.arrive s = d.arrive s := by rw [arrive, arrive, h.item?_eq]
  rw [find, h.grows.spot hs]
  rw [find, hs] at hf
  exact harrive.trans hf

theorem lists (h : SameContent d d') (hn : d.Lists dir n) : d'.Lists dir n := by
  have hiff : ∀ d : Disk, (∃ e ∈ d.items, e.1 = dir ++ [n])
      ↔ (d.items.lookup (dir ++ [n])).isSome = true := by
    intro d
    rw [List.lookup_isSome_iff]
    exact exists_congr fun e => and_congr_right fun _ => by rw [beq_iff_eq, eq_comm]
  refine ⟨(h.grows.refusal?_eq _ _).trans hn.1, ?_⟩
  rw [hiff, h.lookup_eq, ← hiff]
  exact hn.2

theorem holdsFile (h : SameContent d d') (hn : d.HoldsFile path dir n) :
    d'.HoldsFile path dir n := by
  cases hn with
  | own hi => exact .own ((h.item?_eq _).trans hi)
  | linked hi hf => exact .linked ((h.item?_eq _).trans hi) (h.find_eq_ok hf)

theorem enters (h : SameContent d d') {next : Location} (hn : d.Enters outer path dir n next) :
    d'.Enters outer path dir n next := by
  cases hn with
  | own hi hf => exact .own ((h.item?_eq _).trans hi) (h.find_eq_ok hf)
  | linked hi hf hnew => exact .linked ((h.item?_eq _).trans hi) (h.find_eq_ok hf) hnew

theorem reaches (h : SameContent d d') {ns : List Name} (hr : d.Reaches outer path dir ns) :
    d'.Reaches outer path dir ns := by
  induction hr with
  | file hn hfile => exact .file (h.lists hn) (h.holdsFile hfile)
  | enter hn hnext _ ih => exact .enter (h.lists hn) (h.enters hnext) ih

/-- A walk does not depend on how the disk lists what is on it. -/
theorem walk_eq (h : SameContent d d') : d'.walk outer path dir = d.walk outer path dir := by
  refine eq_of_pairwise_of_mem_iff (pairwise_walk ..) (pairwise_walk ..) fun ns => ?_
  rw [mem_walk_iff, mem_walk_iff]
  exact ⟨h.symm.reaches, h.reaches⟩

end SameContent

end Disk

end PawnApi
