/-
  PawnApi.Proofs.Delivery

  How a file gets to its place on the disk.

  Making the directories above a path puts directories where nothing stood and each of them
  is found by a path above (`makes_makeParents`). If that fails, one of them is not there and
  cannot be made (`exists_of_makeParents_eq_error`). The file is then opened and filled, and
  each of these steps may be refused. `Delivers` has one case for each way this can end, and
  `Delivers.writesOnly` says what all of them have in common: one file may be new or changed,
  the one the path leads to, and all else that is new are directories above it.
-/
import PawnApi.Proofs.Growth
import PawnApi.Scan.Run

namespace PawnApi

/-- Whether the path `q` is reached from `p` by going up. -/
inductive Path.IsAbove : List Char → List Char → Prop where
  | parent {q p : List Char} (h : parent? p = some q) : IsAbove q p
  | higher {r q p : List Char} (h : parent? q = some r) (hq : IsAbove q p) : IsAbove r p

/-- Whether the path `q` is `p` or above it. -/
def Path.IsAtOrAbove (q p : List Char) : Prop :=
  q = p ∨ IsAbove q p

theorem Path.IsAtOrAbove.isAbove {r q p : List Char} (h : IsAtOrAbove r q)
    (hp : parent? p = some q) : IsAbove r p := by
  rcases h with rfl | h
  · exact .parent hp
  · induction h with
    | parent h => exact .higher h (.parent hp)
    | higher h _ ih => exact .higher h (ih hp)

namespace Disk

/-! ## Making directories -/

/-- The disk `d'` is `d` with new directories, each found by a path that `P` allows. -/
structure Makes (P : List Char → Prop) (d d' : Disk) : Prop where
  here_eq : d'.here = d.here
  lost_eq : d'.lost = d.lost
  refusals_eq : d'.refusals = d.refusals
  item?_eq : ∀ l, d'.item? l = d.item? l ∨
    d.item? l = none ∧ ∃ q, P q ∧ d'.find q = .ok (l, .dir)

namespace Makes

variable {P Q : List Char → Prop} {d d' d'' : Disk}

theorem refl (P : List Char → Prop) (d : Disk) : Makes P d d :=
  ⟨rfl, rfl, rfl, fun _ => Or.inl rfl⟩

theorem mono (h : Makes P d d') (hPQ : ∀ q, P q → Q q) : Makes Q d d' := by
  refine { h with item?_eq := fun l => ?_ }
  rcases h.item?_eq l with heq | ⟨hnone, q, hq, hfind⟩
  · exact Or.inl heq
  · exact Or.inr ⟨hnone, q, hPQ q hq, hfind⟩

theorem grows (h : Makes P d d') : Grows d d' := by
  refine ⟨h.here_eq, h.lost_eq, h.refusals_eq, fun l => ?_⟩
  rcases h.item?_eq l with heq | ⟨hnone, q, -, hfind⟩
  · exact Or.inl heq
  · exact Or.inr ⟨Or.inl hnone, Or.inl (item?_of_find_eq_ok hfind)⟩

theorem trans (h : Makes P d d') (h' : Makes P d' d'') : Makes P d d'' := by
  refine ⟨h'.here_eq.trans h.here_eq, h'.lost_eq.trans h.lost_eq,
    h'.refusals_eq.trans h.refusals_eq, fun l => ?_⟩
  rcases h.item?_eq l with heq | ⟨hnone, q, hq, hfind⟩
  · rcases h'.item?_eq l with heq' | ⟨hnone', hfind'⟩
    · exact Or.inl (heq'.trans heq)
    · exact Or.inr ⟨heq ▸ hnone', hfind'⟩
  · exact Or.inr ⟨hnone, q, hq, h'.grows.find_dir hfind⟩

theorem of_makeDir {p : List Char} (h : d.makeDir p = .ok d') : Makes (· = p) d d' := by
  obtain ⟨l, hl, rfl, hfind⟩ := find_of_makeDir h
  refine ⟨rfl, rfl, rfl, fun k => ?_⟩
  by_cases hk : k = l
  · subst hk
    exact Or.inr ⟨hl, p, rfl, hfind⟩
  · exact Or.inl (item?_put_of_ne hk _)

end Makes

theorem makes_ensureDir (d : Disk) (p : List Char) : Makes (· = p) d (d.ensureDir p).1 := by
  unfold ensureDir
  split
  · exact .of_makeDir ‹_›
  · exact .refl _ d

theorem makes_makeDirs (d : Disk) (p : List Char) :
    Makes (Path.IsAtOrAbove · p) d (d.makeDirs p).1 := by
  have hensure : ∀ (d : Disk) (p : List Char),
      Makes (Path.IsAtOrAbove · p) d (d.ensureDir p).1 := fun d p =>
    (makes_ensureDir d p).mono fun r hr => Or.inl hr
  fun_induction d.makeDirs p with
  | case1 => exact .refl _ d
  | case2 => exact .refl _ d
  | case3 p _ _ q hq d' hmade ih =>
    rw [hmade] at ih
    exact (ih.mono fun r hr => Or.inr (hr.isAbove hq)).trans (hensure d' p)
  | case4 p _ _ q hq d' fault hfailed ih =>
    -- what was made higher up before the fault stays
    rw [hfailed] at ih
    exact ih.mono fun r hr => Or.inr (hr.isAbove hq)
  | case5 p => exact hensure d p

theorem makes_makeParents (d : Disk) (p : List Char) :
    Makes (Path.IsAbove · p) d (d.makeParents p).1 := by
  unfold makeParents
  split
  · rename_i q hq
    exact (makes_makeDirs d q).mono fun r hr => hr.isAbove hq
  · exact .refl _ d

/-! ## Directories that are there, and those that cannot be made -/

theorem isDir_of_ensureDir {d d' : Disk} {p : List Char} (h : d.ensureDir p = (d', .ok ())) :
    d'.isDir p = true := by
  unfold ensureDir at h
  split at h
  · rename_i d₁ hmake
    obtain ⟨rfl, -⟩ := Prod.mk.inj h
    obtain ⟨l, -, -, hfind⟩ := find_of_makeDir hmake
    exact isDir_iff.2 ⟨l, hfind⟩
  · obtain ⟨rfl, hresult⟩ := Prod.mk.inj h
    by_cases hdir : d.isDir p = true
    · exact hdir
    · simp [hdir] at hresult

theorem of_ensureDir_eq_error {d d' : Disk} {p : List Char} {fault : Fault}
    (h : d.ensureDir p = (d', .error fault)) :
    d'.isDir p = false ∧ d'.makeDir p = .error fault := by
  unfold ensureDir at h
  split at h
  · simp at h
  · rename_i e hmake
    obtain ⟨rfl, hresult⟩ := Prod.mk.inj h
    by_cases hdir : d.isDir p = true
    · simp [hdir] at hresult
    · rw [if_neg hdir] at hresult
      obtain rfl := Except.error.inj hresult
      exact ⟨by simpa using hdir, hmake⟩

theorem isDir_of_makeDirs {d d' : Disk} {p : List Char} (h : d.makeDirs p = (d', .ok ())) :
    p = [] ∨ d'.isDir p = true := by
  fun_induction d.makeDirs p with
  | case1 p hempty => exact Or.inl (List.isEmpty_iff.1 hempty)
  | case2 => simp at h
  | case3 => exact Or.inr (isDir_of_ensureDir h)
  | case4 => simp at h
  | case5 => exact Or.inr (isDir_of_ensureDir h)

/-- Making directories fails at one that is not there and cannot be made. -/
theorem exists_of_makeDirs_eq_error {d d' : Disk} {p : List Char} {fault : Fault}
    (h : d.makeDirs p = (d', .error fault)) :
    ∃ r, Path.IsAtOrAbove r p ∧ d'.isDir r = false ∧ d'.makeDir r = .error fault := by
  fun_induction d.makeDirs p with
  | case1 => simp at h
  | case2 p _ hmake hq =>
    obtain ⟨rfl, hfault⟩ := Prod.mk.inj h
    obtain rfl := Except.error.inj hfault
    refine ⟨p, Or.inl rfl, ?_, hmake⟩
    -- a directory that is there would have been met
    rw [← Bool.not_eq_true]
    intro hdir
    rw [makeDir_of_isDir hdir] at hmake
    simp at hmake
  | case3 p _ _ q hq d₁ hmade _ => exact ⟨p, Or.inl rfl, of_ensureDir_eq_error h⟩
  | case4 p _ _ q hq d₁ e hfailed ih =>
    obtain ⟨rfl, hfault⟩ := Prod.mk.inj h
    obtain rfl := Except.error.inj hfault
    obtain ⟨r, hr, hrest⟩ := ih hfailed
    exact ⟨r, Or.inr (hr.isAbove hq), hrest⟩
  | case5 p => exact ⟨p, Or.inl rfl, of_ensureDir_eq_error h⟩

theorem exists_of_makeParents_eq_error {d d' : Disk} {p : List Char} {fault : Fault}
    (h : d.makeParents p = (d', .error fault)) :
    ∃ q, Path.parent? p = some q ∧
      ∃ r, Path.IsAbove r p ∧ d'.isDir r = false ∧ d'.makeDir r = .error fault := by
  unfold makeParents at h
  split at h
  · rename_i q hq
    obtain ⟨r, hr, hrest⟩ := exists_of_makeDirs_eq_error h
    exact ⟨q, hq, r, hr.isAbove hq, hrest⟩
  · simp at h

/-- The disk `d'` is `d` with the directories above a path, those that were missing made. -/
structure Prepares (p : List Char) (d d' : Disk) : Prop where
  makes : Makes (Path.IsAbove · p) d d'
  isDir_parent : ∀ q, Path.parent? p = some q → q = [] ∨ d'.isDir q = true

theorem prepares_of_makeParents {d d' : Disk} {p : List Char}
    (h : d.makeParents p = (d', .ok ())) : Prepares p d d' := by
  refine ⟨?_, fun q hq => ?_⟩
  · have hmakes := d.makes_makeParents p
    rw [h] at hmakes
    exact hmakes
  · rw [makeParents, hq] at h
    exact isDir_of_makeDirs h

/-! ## Writing the file -/

/-- How a content gets to the file at a path, or why it does not: from the disk `d` to the
    disk that is left and the result. -/
inductive Delivers (p : List Char) (content : List UInt8) (d : Disk) :
    Disk → Except Failure Unit → Prop where
  /-- A directory above the file is not there and cannot be made. -/
  | noParent {d' : Disk} {q r : List Char} {fault : Fault}
      (hmakes : Makes (Path.IsAbove · p) d d') (hq : Path.parent? p = some q)
      (hr : Path.IsAbove r p) (hdir : d'.isDir r = false)
      (hfault : d'.makeDir r = .error fault) :
      Delivers p content d d' (.error (.disk q .makeOutputDir fault))
  /-- The file cannot be opened, and stays as it was. -/
  | unopened {d' : Disk} {fault : Fault} (hd : Prepares p d d')
      (hfault : d'.openFile p = .error fault) :
      Delivers p content d d' (.error (.disk p .writeOutput fault))
  /-- The file takes only a part of the content. -/
  | cutShort {d' : Disk} {l : Location} {r : Refusal} (hd : Prepares p d d')
      (hopen : d'.openFile p = .ok l) (hr : d'.refusal? .fill l = some r)
      (hlt : r.after < content.length) :
      Delivers p content d (d'.put l (.file (content.take r.after)))
        (.error (.disk p .writeOutput r.fault))
  /-- The file takes all of the content. -/
  | done {d' : Disk} {l : Location} (hd : Prepares p d d') (hopen : d'.openFile p = .ok l)
      (hroom : ∀ r, d'.refusal? .fill l = some r → content.length ≤ r.after) :
      Delivers p content d (d'.put l (.file content)) (.ok ())

/-- The disk `d'` is `d` with a file written at a path: all else that is new are directories
    above the path. -/
structure WritesOnly (p : List Char) (d d' : Disk) : Prop where
  here_eq : d'.here = d.here
  lost_eq : d'.lost = d.lost
  refusals_eq : d'.refusals = d.refusals
  item?_eq : ∀ l, d'.item? l = d.item? l ∨
    (d.item? l = none ∧ ∃ q, Path.IsAbove q p ∧ d'.find q = .ok (l, .dir)) ∨
    (d.Vacant l ∧ ∃ content, d'.find p = .ok (l, .file content))

theorem Makes.writesOnly {p : List Char} {d d' : Disk} (h : Makes (Path.IsAbove · p) d d') :
    WritesOnly p d d' :=
  ⟨h.here_eq, h.lost_eq, h.refusals_eq, fun l => (h.item?_eq l).imp_right Or.inl⟩

/-- Whatever a file that was opened is filled with, it takes the place of no directory. -/
theorem Makes.writesOnly_put {p : List Char} {d d' : Disk} {k : Location}
    (h : Makes (Path.IsAbove · p) d d') (hopen : d'.openFile p = .ok k) (content : List UInt8) :
    WritesOnly p d (d'.put k (.file content)) := by
  obtain ⟨hk, hfind⟩ := find_of_openFile hopen content
  have hgrows : Grows d' (d'.put k (.file content)) := .put hk (Or.inr ⟨content, rfl⟩)
  refine ⟨h.here_eq, h.lost_eq, h.refusals_eq, fun l => ?_⟩
  rcases h.item?_eq l with heq | ⟨hnone, q, hq, hdir⟩
  · by_cases hl : l = k
    · subst hl
      refine Or.inr (Or.inr ⟨?_, content, hfind⟩)
      rw [Vacant, ← heq]
      exact hk
    · exact Or.inl ((item?_put_of_ne hl _).trans heq)
  · -- the new directories are still found
    exact Or.inr (Or.inl ⟨hnone, q, hq, hgrows.find_dir hdir⟩)

namespace Delivers

variable {p : List Char} {content : List UInt8} {d d' : Disk} {result : Except Failure Unit}

theorem writesOnly (h : Delivers p content d d' result) : WritesOnly p d d' := by
  cases h with
  | noParent hmakes => exact hmakes.writesOnly
  | unopened hd => exact hd.makes.writesOnly
  | cutShort hd hopen => exact hd.makes.writesOnly_put hopen _
  | done hd hopen => exact hd.makes.writesOnly_put hopen _

/-- A content that was delivered is found at its path. -/
theorem exists_find (h : Delivers p content d d' (.ok ())) :
    ∃ l, d'.find p = .ok (l, .file content) := by
  cases h with
  | @done d₁ l hd hopen hroom => exact ⟨l, (find_of_openFile hopen content).2⟩

end Delivers

/-- Writing a file whose directory is ready ends in one of the ways of `Delivers`. -/
theorem delivers_write {p : List Char} {d d' : Disk} (hd : Prepares p d d')
    (content : List UInt8) :
    Delivers p content d (d'.write p content).1
      ((d'.write p content).2.mapError (Failure.disk p .writeOutput)) := by
  unfold write
  cases hopen : d'.openFile p with
  | error fault => exact .unopened hd hopen
  | ok l =>
    dsimp only
    split
    · rename_i r hr
      rw [Option.filter_eq_some_iff, decide_eq_true_eq] at hr
      exact .cutShort hd hopen hr.1 hr.2
    · rename_i hnone
      refine .done hd hopen fun r hr => ?_
      have hfits := Option.filter_eq_none_iff.1 hnone r hr
      simpa using hfits

end Disk

theorem Scan.writeInventory_delivers (d : Disk) (es : List Entry) (pretty : Bool)
    (p : List Char) :
    d.Delivers p (Text.Utf8.encode (Entry.renderAll pretty es)) (writeInventory d es pretty p).1
      (writeInventory d es pretty p).2 := by
  have hmakes := d.makes_makeParents p
  unfold writeInventory
  split
  · rename_i d' fault hparents
    rw [hparents] at hmakes
    obtain ⟨q, hq, r, hr, hdir, hfault⟩ := Disk.exists_of_makeParents_eq_error hparents
    rw [hq]
    exact .noParent hmakes hq hr hdir hfault
  · rename_i d' hparents
    exact Disk.delivers_write (Disk.prepares_of_makeParents hparents) _

end PawnApi
