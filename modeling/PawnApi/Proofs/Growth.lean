/-
  PawnApi.Proofs.Growth

  Where paths lead on a disk that grows.

  `Leads` says step by step how a path is followed. Files and new directories are put only
  where nothing or a file stood, so no directory or link on the way of a path is touched:
  what a path led to before, it leads to afterwards (`Grows.leads`). Hence what is written
  to a file that was opened is found there again (`find_of_openFile`), and a directory that
  was made for a path stays where the path leads (`find_of_makeDir`). One that is there
  cannot be made again (`makeDir_of_isDir`).
-/
import PawnApi.Disk.Files

namespace PawnApi.Disk

/-! ## How a path is followed -/

/-- Whether nothing or a file stands at a location. -/
def Vacant (d : Disk) (l : Location) : Prop :=
  d.item? l = none ∨ ∃ content, d.item? l = some (.file content)

/-- Whether a name is looked up in a directory, not a step of its own. -/
structure LooksUp (d : Disk) (base : Location) (n : Name) : Prop where
  passes : d.refusal? .pass base = none
  ne_dot : n ≠ "."
  ne_dots : n ≠ ".."
  ne_nowhere : base ≠ nowhere
  size_le : ¬ maxNameSize < n.utf8ByteSize

/-- Following names from a directory ends at a spot. The arguments are those of `follow`. -/
inductive Leads (d : Disk) (e : Ending) : Nat → Location → Bool → List Name → Spot → Prop where
  | done {links : Nat} {base : Location} {w : Bool} (he : e ≠ .filed) :
      Leads d e links base w [] ⟨base, w⟩
  | dot {links : Nat} {base : Location} {w : Bool} {rest : List Name} {s : Spot}
      (hp : d.refusal? .pass base = none) (h : Leads d e links base w rest s) :
      Leads d e links base w ("." :: rest) s
  | dots {links : Nat} {base : Location} {w : Bool} {rest : List Name} {s : Spot}
      (hp : d.refusal? .pass base = none) (h : Leads d e links (d.above base) w rest s) :
      Leads d e links base w (".." :: rest) s
  | dir {links : Nat} {base : Location} {w : Bool} {n : Name} {rest : List Name} {s : Spot}
      (hn : d.LooksUp base n) (hw : (decide (e = .filed) && rest.isEmpty && w) = false)
      (hi : d.item? (base ++ [n]) = some .dir) (h : Leads d e links (base ++ [n]) w rest s) :
      Leads d e links base w (n :: rest) s
  | link {links : Nat} {base : Location} {w : Bool} {n : Name} {rest : List Name} {s : Spot}
      {target : String} (hn : d.LooksUp base n)
      (hw : (decide (e = .filed) && rest.isEmpty && w) = false)
      (hi : d.item? (base ++ [n]) = some (.link target))
      (hk : (rest.isEmpty && decide (e = .kept)) = false)
      (h : Leads d e links (if Path.isAbsolute target.toList then [] else base)
        (w || (rest.isEmpty && endsInSlash target.toList)) (pathNames target.toList ++ rest) s) :
      Leads d e (links + 1) base w (n :: rest) s
  /-- A link at the end is taken as it is. -/
  | keptLink {links : Nat} {base : Location} {w : Bool} {n : Name} {target : String}
      (he : e = .kept) (hn : d.LooksUp base n) (hi : d.item? (base ++ [n]) = some (.link target)) :
      Leads d e links base w [n] ⟨base ++ [n], w⟩
  | last {links : Nat} {base : Location} {w : Bool} {n : Name} (hn : d.LooksUp base n)
      (hw : (decide (e = .filed) && w) = false) (hi : d.Vacant (base ++ [n])) :
      Leads d e links base w [n] ⟨base ++ [n], w⟩

theorem leads_of_followFrom {d : Disk} {e : Ending} {links : Nat} {base : Location} {w : Bool}
    {ns : List Name} {s : Spot} {jump : Location → Bool → List Name → Except Fault Spot}
    (hjump : ∀ {base w ns s}, jump base w ns = .ok s →
      ∃ k, links = k + 1 ∧ Leads d e k base w ns s)
    (hs : d.followFrom e jump base w ns = .ok s) : Leads d e links base w ns s := by
  -- the cases closed by `simp` are the faults
  fun_induction d.followFrom e jump base w ns with
  | case1 => simp at hs
  | case2 base he =>
    obtain rfl := Except.ok.inj hs
    exact .done he
  | case3 => simp at hs
  | case4 base rest hp ih => exact .dot hp (ih hs)
  | case5 base rest hp _ ih => exact .dots hp (ih hs)
  | case6 => simp at hs
  | case7 => simp at hs
  | case8 => simp at hs
  | case9 base n rest hp h₁ h₂ hw h₃ h₄ target hi hk =>
    obtain rfl := Except.ok.inj hs
    simp only [Bool.and_eq_true, List.isEmpty_iff, decide_eq_true_eq] at hk
    obtain ⟨rfl, he⟩ := hk
    exact .keptLink he ⟨hp, h₁, h₂, h₃, h₄⟩ hi
  | case10 base n rest hp h₁ h₂ hw h₃ h₄ target hi hk t =>
    obtain ⟨k, rfl, hleads⟩ := hjump hs
    exact .link ⟨hp, h₁, h₂, h₃, h₄⟩ (by simpa using hw) hi (by simpa using hk) hleads
  | case11 base n rest hp h₁ h₂ hw h₃ h₄ hi ih =>
    exact .dir ⟨hp, h₁, h₂, h₃, h₄⟩ (by simpa using hw) hi (ih hs)
  | case12 base n rest hp h₁ h₂ hw h₃ h₄ content hi hr =>
    obtain rfl := Except.ok.inj hs
    obtain rfl := List.isEmpty_iff.1 hr
    exact .last ⟨hp, h₁, h₂, h₃, h₄⟩ (by simpa using hw) (Or.inr ⟨content, hi⟩)
  | case13 => simp at hs
  | case14 base n rest hp h₁ h₂ hw h₃ h₄ hi hr =>
    obtain rfl := Except.ok.inj hs
    obtain rfl := List.isEmpty_iff.1 hr
    exact .last ⟨hp, h₁, h₂, h₃, h₄⟩ (by simpa using hw) (Or.inl hi)
  | case15 => simp at hs

theorem leads_of_follow {d : Disk} {e : Ending} {links : Nat} {base : Location} {w : Bool}
    {ns : List Name} {s : Spot} (hs : d.follow e links base w ns = .ok s) :
    Leads d e links base w ns s := by
  -- a link costs one of `links`, and between two links the names get fewer
  induction links generalizing base w ns s with
  | zero =>
    apply leads_of_followFrom _ hs
    intro base w ns s hno
    simp at hno
  | succ k ih =>
    apply leads_of_followFrom _ hs
    intro base w ns s hfollow
    exact ⟨k, rfl, ih hfollow⟩

/-- What is done at a name that is looked up depends on what stands there. -/
theorem LooksUp.followFrom_cons {d : Disk} {e : Ending} {base : Location} {w : Bool} {n : Name}
    {rest : List Name} (hn : d.LooksUp base n)
    (hw : (decide (e = .filed) && rest.isEmpty && w) = false)
    (jump : Location → Bool → List Name → Except Fault Spot) :
    d.followFrom e jump base w (n :: rest) = match d.item? (base ++ [n]) with
      | some (.link target) =>
        if rest.isEmpty && decide (e = .kept) then .ok ⟨base ++ [n], w⟩
        else jump (if Path.isAbsolute target.toList then [] else base)
          (w || (rest.isEmpty && endsInSlash target.toList)) (pathNames target.toList ++ rest)
      | some .dir => d.followFrom e jump (base ++ [n]) w rest
      | some (.file _) => if rest.isEmpty then .ok ⟨base ++ [n], w⟩ else .error .notDirectory
      | none => if rest.isEmpty then .ok ⟨base ++ [n], w⟩ else .error .notFound := by
  rw [followFrom, hn.passes]
  dsimp only
  rw [if_neg hn.ne_dot, if_neg hn.ne_dots, if_neg (by simp [hw]), if_neg hn.ne_nowhere]
  exact if_neg hn.size_le

theorem Leads.follow_eq_ok {d : Disk} {e : Ending} {links : Nat} {base : Location} {w : Bool}
    {ns : List Name} {s : Spot} (h : Leads d e links base w ns s) :
    d.follow e links base w ns = .ok s := by
  induction h with
  | done he => rw [follow_eq, followFrom, if_neg he]
  | dot hp _ ih =>
    rw [follow_eq, followFrom, hp, ← follow_eq]
    exact (if_pos rfl).trans ih
  | dots hp _ ih =>
    rw [follow_eq, followFrom, hp, ← follow_eq]
    exact (if_neg (by decide)).trans ((if_pos rfl).trans ih)
  | dir hn hw hi _ ih =>
    rw [follow_eq, hn.followFrom_cons hw, hi, ← follow_eq]
    exact ih
  | link hn hw hi hk _ ih =>
    rw [follow_eq, hn.followFrom_cons hw, hi]
    simp only [hk, Bool.false_eq_true, if_false]
    exact ih
  | keptLink he hn hi =>
    rw [follow_eq, hn.followFrom_cons (by simp [he]), hi]
    simp [he]
  | last hn hw hi =>
    rw [follow_eq, hn.followFrom_cons (by simpa using hw)]
    rcases hi with hi | ⟨content, hi⟩ <;> simp [hi]

/-- Where a file is or may be made, the path leads if links are followed to the end. -/
theorem Leads.followed_of_filed {d : Disk} {links : Nat} {base : Location} {w : Bool}
    {ns : List Name} {s : Spot} (h : Leads d .filed links base w ns s) :
    Leads d .followed links base w ns s ∧ s.wantsDir = false := by
  induction h with
  | done he => exact absurd rfl he
  | dot hp _ ih => exact ⟨.dot hp ih.1, ih.2⟩
  | dots hp _ ih => exact ⟨.dots hp ih.1, ih.2⟩
  | dir hn _ hi _ ih => exact ⟨.dir hn (by simp) hi ih.1, ih.2⟩
  | link hn _ hi _ _ ih => exact ⟨.link hn (by simp) hi (by simp) ih.1, ih.2⟩
  | keptLink he => simp at he
  | last hn hw hi => exact ⟨.last hn (by simp) hi, by simpa using hw⟩

/-- Where a path ends at something else than a link, following links changes nothing. -/
theorem Leads.followed_of_kept {d : Disk} {links : Nat} {base : Location} {w : Bool}
    {ns : List Name} {s : Spot} (h : Leads d .kept links base w ns s)
    (hs : ∀ target, d.item? s.location ≠ some (.link target)) :
    Leads d .followed links base w ns s := by
  induction h with
  | done _ => exact .done (by simp)
  | dot hp _ ih => exact .dot hp (ih hs)
  | dots hp _ ih => exact .dots hp (ih hs)
  | dir hn _ hi _ ih => exact .dir hn (by simp) hi (ih hs)
  | link hn _ hi _ _ ih => exact .link hn (by simp) hi (by simp) (ih hs)
  | keptLink _ _ hi =>
    -- the spot would be a link
    exact absurd hi (hs _)
  | last hn _ hi => exact .last hn (by simp) hi

/-- Where a path leads to something if links are followed, it leads to something if the last
    one is kept. -/
theorem Leads.exists_kept {d : Disk} {links : Nat} {base : Location} {w : Bool}
    {ns : List Name} {s : Spot} (h : Leads d .followed links base w ns s)
    (hs : (d.item? s.location).isSome = true) :
    ∃ t, Leads d .kept links base w ns t ∧ (d.item? t.location).isSome = true := by
  induction h with
  | done _ => exact ⟨_, .done (by simp), hs⟩
  | dot hp _ ih =>
    obtain ⟨t, ht, hi⟩ := ih hs
    exact ⟨t, .dot hp ht, hi⟩
  | dots hp _ ih =>
    obtain ⟨t, ht, hi⟩ := ih hs
    exact ⟨t, .dots hp ht, hi⟩
  | dir hn _ hi _ ih =>
    obtain ⟨t, ht, hit⟩ := ih hs
    exact ⟨t, .dir hn (by simp) hi ht, hit⟩
  | @link links base w n rest s target hn _ hi _ _ ih =>
    cases rest with
    | nil =>
      -- the path ends at the link itself
      exact ⟨_, .keptLink rfl hn hi, by simp [hi]⟩
    | cons m rest =>
      obtain ⟨t, ht, hit⟩ := ih hs
      exact ⟨t, .link hn (by simp) hi (by simp) ht, hit⟩
  | keptLink he => simp at he
  | last hn _ hi => exact ⟨_, .last hn (by simp) hi, hs⟩

/-- Whether a path is looked up at all. -/
structure Askable (p : List Char) : Prop where
  noNul : ¬ p.contains '\x00' = true
  ne_nil : ¬ p.isEmpty = true
  size_lt : ¬ pathSizeLimit ≤ (String.ofList p).utf8ByteSize

theorem spot_eq_ok_iff {d : Disk} {e : Ending} {p : List Char} {s : Spot} :
    d.spot e p = .ok s ↔ Askable p ∧
      Leads d e maxLinks (if Path.isAbsolute p then [] else d.workplace) (endsInSlash p)
        (pathNames p) s := by
  constructor
  · intro h
    unfold spot at h
    split at h
    · simp at h
    split at h
    · simp at h
    split at h
    · simp at h
    · exact ⟨⟨‹_›, ‹_›, ‹_›⟩, leads_of_follow h⟩
  · rintro ⟨ha, h⟩
    rw [spot, if_neg ha.noNul, if_neg ha.ne_nil, if_neg ha.size_lt, h.follow_eq_ok]

theorem spot_followed_of_filed {d : Disk} {p : List Char} {s : Spot}
    (h : d.spot .filed p = .ok s) : d.spot .followed p = .ok s ∧ s.wantsDir = false := by
  obtain ⟨ha, hleads⟩ := spot_eq_ok_iff.1 h
  obtain ⟨hfollowed, hw⟩ := hleads.followed_of_filed
  exact ⟨spot_eq_ok_iff.2 ⟨ha, hfollowed⟩, hw⟩

theorem spot_followed_of_kept {d : Disk} {p : List Char} {s : Spot}
    (h : d.spot .kept p = .ok s) (hs : ∀ target, d.item? s.location ≠ some (.link target)) :
    d.spot .followed p = .ok s := by
  obtain ⟨ha, hleads⟩ := spot_eq_ok_iff.1 h
  exact spot_eq_ok_iff.2 ⟨ha, hleads.followed_of_kept hs⟩

theorem find_of_spot {d : Disk} {p : List Char} {s : Spot} {i : Item}
    (h : d.spot .followed p = .ok s) (hi : d.item? s.location = some i)
    (hw : s.wantsDir = true → i = .dir) : d.find p = .ok (s.location, i) := by
  have harrive : d.arrive s = .ok (s.location, i) := by
    rw [arrive, hi]
    refine if_neg ?_
    rw [Bool.and_eq_true, decide_eq_true_eq]
    exact fun hc => hc.2 (hw hc.1)
  rw [find, h]
  exact harrive

theorem exists_spot_of_find {d : Disk} {p : List Char} {l : Location} {i : Item}
    (h : d.find p = .ok (l, i)) : ∃ s, d.spot .followed p = .ok s ∧ s.location = l := by
  cases hs : d.spot .followed p with
  | error fault =>
    rw [find, hs] at h
    simp [bind, Except.bind] at h
  | ok s =>
    rw [find, hs] at h
    have harrive : d.arrive s = .ok (l, i) := h
    rw [arrive] at harrive
    refine ⟨s, rfl, ?_⟩
    split at harrive
    · simp at harrive
    split at harrive
    · simp at harrive
    · exact (Prod.mk.inj (Except.ok.inj harrive)).1

/-! ## Growth -/

/-- A disk grows if files and directories are put where nothing or a file stood. -/
structure Grows (d d' : Disk) : Prop where
  here_eq : d'.here = d.here
  lost_eq : d'.lost = d.lost
  refusals_eq : d'.refusals = d.refusals
  item?_eq : ∀ l, d'.item? l = d.item? l ∨
    d.Vacant l ∧ (d'.item? l = some .dir ∨ ∃ content, d'.item? l = some (.file content))

theorem not_isFixed_of_vacant {d : Disk} {l : Location} (h : d.Vacant l) : ¬ isFixed l := by
  intro hf
  rcases h with h | ⟨content, h⟩ <;> simp [item?, hf] at h

namespace Grows

variable {d d' : Disk}

theorem put {l : Location} (hl : d.Vacant l) {i : Item}
    (hi : i = .dir ∨ ∃ content, i = .file content) : Grows d (d.put l i) := by
  refine ⟨rfl, rfl, rfl, fun k => ?_⟩
  by_cases hk : k = l
  · subst hk
    rw [item?_put_self (not_isFixed_of_vacant hl)]
    refine Or.inr ⟨hl, ?_⟩
    simpa using hi
  · exact Or.inl (item?_put_of_ne hk i)

theorem above_eq (h : Grows d d') (l : Location) : d'.above l = d.above l := by
  rw [above, above, h.here_eq]

theorem workplace_eq (h : Grows d d') : d'.workplace = d.workplace := by
  rw [workplace, workplace, h.here_eq, h.lost_eq]

theorem refusal?_eq (h : Grows d d') (a : Act) (l : Location) :
    d'.refusal? a l = d.refusal? a l := by
  rw [refusal?, refusal?, h.refusals_eq]

theorem looksUp (h : Grows d d') {base : Location} {n : Name} (hn : d.LooksUp base n) :
    d'.LooksUp base n :=
  { hn with passes := (h.refusal?_eq .pass base).trans hn.passes }

theorem item?_of_not_vacant (h : Grows d d') {l : Location} (hl : ¬ d.Vacant l) :
    d'.item? l = d.item? l :=
  (h.item?_eq l).resolve_right fun hv => hl hv.1

theorem item?_link (h : Grows d d') {l : Location} {target : String}
    (hl : d.item? l = some (.link target)) : d'.item? l = some (.link target) := by
  rw [h.item?_of_not_vacant, hl]
  rintro (hv | ⟨content, hv⟩) <;> rw [hl] at hv <;> simp at hv

theorem item?_dir (h : Grows d d') {l : Location} (hl : d.item? l = some .dir) :
    d'.item? l = some .dir := by
  rw [h.item?_of_not_vacant, hl]
  rintro (hv | ⟨content, hv⟩) <;> rw [hl] at hv <;> simp at hv

/-- A path leads where it led before. -/
theorem leads (h : Grows d d') {links : Nat} {base : Location} {w : Bool} {ns : List Name}
    {s : Spot} (hs : Leads d .followed links base w ns s) :
    Leads d' .followed links base w ns s := by
  induction hs with
  | done he => exact .done he
  | dot hp _ ih => exact .dot ((h.refusal?_eq _ _).trans hp) ih
  | dots hp _ ih =>
    refine .dots ((h.refusal?_eq _ _).trans hp) ?_
    rw [h.above_eq]
    exact ih
  | dir hn hw hi _ ih => exact .dir (h.looksUp hn) hw (h.item?_dir hi) ih
  | link hn hw hi hk _ ih => exact .link (h.looksUp hn) hw (h.item?_link hi) hk ih
  | keptLink he => simp at he
  | @last links base w n hn hw hi =>
    -- what stands at the end may be new, but it is no link
    rcases h.item?_eq (base ++ [n]) with heq | ⟨-, hdir | ⟨content, hfile⟩⟩
    · refine .last (h.looksUp hn) hw ?_
      rw [Vacant, heq]
      exact hi
    · exact .dir (h.looksUp hn) (by simp) hdir (.done (by simp))
    · exact .last (h.looksUp hn) hw (Or.inr ⟨content, hfile⟩)

theorem spot (h : Grows d d') {p : List Char} {s : Spot} (hs : d.spot .followed p = .ok s) :
    d'.spot .followed p = .ok s := by
  rw [spot_eq_ok_iff] at hs ⊢
  rw [h.workplace_eq]
  exact ⟨hs.1, h.leads hs.2⟩

/-- A directory is found where it was found before. -/
theorem find_dir (h : Grows d d') {p : List Char} {l : Location} (hf : d.find p = .ok (l, .dir)) :
    d'.find p = .ok (l, .dir) := by
  have hl := item?_of_find_eq_ok hf
  obtain ⟨s, hs, rfl⟩ := exists_spot_of_find hf
  exact find_of_spot (h.spot hs) (h.item?_dir hl) fun _ => rfl

end Grows

/-! ## Single changes -/

/-- What is put where a path leads is found by the path. -/
theorem find_put {d : Disk} {p : List Char} {s : Spot} {i : Item}
    (hs : d.spot .followed p = .ok s) (hv : d.Vacant s.location)
    (hi : i = .dir ∨ ∃ content, i = .file content) (hw : s.wantsDir = true → i = .dir) :
    (d.put s.location i).find p = .ok (s.location, i) := by
  -- the way to the spot is the same on the new disk, whose item there is the new one
  apply find_of_spot ((Grows.put hv hi).spot hs) _ hw
  exact item?_put_self (not_isFixed_of_vacant hv) i

/-- A file is opened where its path leads and nothing or a file stands. What is written there
    is found by the path. -/
theorem find_of_openFile {d : Disk} {p : List Char} {l : Location} (h : d.openFile p = .ok l)
    (content : List UInt8) :
    d.Vacant l ∧ (d.put l (.file content)).find p = .ok (l, .file content) := by
  unfold openFile at h
  cases hs : d.spot .filed p with
  | error fault => simp [hs, bind, Except.bind] at h
  | ok s =>
    have hopen : d.Vacant s.location ∧ s.location = l := by
      simp only [hs, bind, Except.bind] at h
      split at h
      · rename_i hi
        split at h
        · simp at h
        · exact ⟨Or.inl hi, Except.ok.inj h⟩
      · rename_i c hi
        split at h
        · simp at h
        · exact ⟨Or.inr ⟨c, hi⟩, Except.ok.inj h⟩
      · simp at h
    obtain ⟨hv, rfl⟩ := hopen
    obtain ⟨hfollowed, hw⟩ := spot_followed_of_filed hs
    refine ⟨hv, find_put hfollowed hv (Or.inr ⟨content, rfl⟩) ?_⟩
    simp [hw]

/-- A directory is made where its path leads and nothing stood, and it is found there. -/
theorem find_of_makeDir {d d' : Disk} {p : List Char} (h : d.makeDir p = .ok d') :
    ∃ l, d.item? l = none ∧ d' = d.put l .dir ∧ d'.find p = .ok (l, .dir) := by
  unfold makeDir create at h
  cases hs : d.spot .kept p with
  | error fault => simp [hs, bind, Except.bind] at h
  | ok s =>
    have hput : d.item? s.location = none ∧ d' = d.put s.location .dir := by
      simp only [hs, bind, Except.bind] at h
      split at h
      · simp at h
      · rename_i hi
        rw [if_neg (by simp)] at h
        split at h
        · simp at h
        · exact ⟨by simpa using hi, (Except.ok.inj h).symm⟩
    obtain ⟨hi, rfl⟩ := hput
    have hfollowed := spot_followed_of_kept hs (by simp [hi])
    exact ⟨s.location, hi, rfl, find_put hfollowed (Or.inl hi) (Or.inl rfl) fun _ => rfl⟩

theorem makeDir_of_isDir {d : Disk} {p : List Char} (h : d.isDir p = true) :
    d.makeDir p = .error .alreadyThere := by
  obtain ⟨l, hf⟩ := isDir_iff.1 h
  obtain ⟨s, hs, rfl⟩ := exists_spot_of_find hf
  obtain ⟨ha, hleads⟩ := spot_eq_ok_iff.1 hs
  obtain ⟨t, ht, hit⟩ := hleads.exists_kept (by rw [item?_of_find_eq_ok hf]; rfl)
  have hspot : d.spot .kept p = .ok t := spot_eq_ok_iff.2 ⟨ha, ht⟩
  rw [makeDir, create, hspot]
  exact if_pos hit

end PawnApi.Disk
