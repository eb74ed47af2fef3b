/-
  Paths as text.

  Slashes separate the names of a path. Repeated slashes, a slash at the end and a lone
  dot between names say nothing; a slash in front makes the path absolute, and a dot in
  front of a relative path is kept. Two dots are a part of their own and are never
  resolved here.
-/

namespace PawnApi.Path

/-! ## Parts -/

/-- Cuts a text at every slash. -/
def segments : List Char → List (List Char)
  | [] => [[]]
  | c :: s =>
    if c = '/' then [] :: segments s
    else
      match segments s with
      | [] => [[c]]
      | w :: ws => (c :: w) :: ws

/-- Whether a path starts at the root. -/
def isAbsolute (p : List Char) : Bool :=
  p.head? == some '/'

/-- The parts of a path that say something. The root is a part of its own, and so is the
    dot in front of a relative path. -/
def parts (p : List Char) : List (List Char) :=
  let names := (segments p).filter fun w => !w.isEmpty
  let said := names.filter (· ≠ ['.'])
  if isAbsolute p then ['/'] :: said
  else if names.head? = some ['.'] then ['.'] :: said
  else said

/-! ## The end of a path -/

/-- Takes off the end of a path, given in reverse, what says nothing. -/
def trimTailReversed : List Char → List Char
  | ['/'] => ['/']
  | '/' :: r => trimTailReversed r
  | '.' :: '/' :: r => trimTailReversed ('/' :: r)
  | r => r
termination_by r => r.length

theorem length_trimTailReversed_le (r : List Char) :
    (trimTailReversed r).length ≤ r.length := by
  fun_induction trimTailReversed r with
  | case1 => simp
  | case2 r _ ih =>
    simp only [List.length_cons]
    omega
  | case3 r ih =>
    simp only [List.length_cons] at *
    omega
  | case4 => simp

/-- A path that says nothing at its end is the root. -/
theorem head?_trimTailReversed (r : List Char) :
    trimTailReversed r = ['/'] ∨ (trimTailReversed r).head? ≠ some '/' := by
  fun_induction trimTailReversed r with
  | case1 => simp
  | case2 r _ ih => exact ih
  | case3 r ih => exact ih
  | case4 r h1 h2 h3 =>
    right
    intro h
    obtain ⟨s, rfl⟩ := List.head?_eq_some_iff.mp h
    exact h2 s rfl

/-- Takes off the end of a path what says nothing: slashes and lone dots after them. -/
def trimTail (p : List Char) : List Char :=
  (trimTailReversed p.reverse).reverse

/-- The last part of a path, as text. -/
def lastPart (p : List Char) : List Char :=
  ((trimTailReversed p.reverse).takeWhile (· ≠ '/')).reverse

/-- The last name of a path, unless it ends at the root or in dots. -/
def fileName? (p : List Char) : Option (List Char) :=
  let w := lastPart p
  if w.isEmpty || w = ['.'] || w = ['.', '.'] then none else some w

/-- What a path is called: its file name, or the path itself where it has none. -/
def name (p : List Char) : List Char :=
  (fileName? p).getD p

/-- The text after the last dot of the file name. A dot in front does not count. -/
def extension? (p : List Char) : Option (List Char) := do
  let name ← fileName? p
  let after := (name.reverse.takeWhile (· ≠ '.')).reverse
  guard (after.length + 1 < name.length)
  return after

/-- The path without its last part; `none` for the root and the empty path. -/
def parent? (p : List Char) : Option (List Char) :=
  let r := trimTailReversed p.reverse
  if r.isEmpty || r = ['/'] then none
  else some (trimTailReversed (r.dropWhile (· ≠ '/'))).reverse

/-- Going up makes a path shorter. -/
theorem length_lt_of_parent?_eq_some {p q : List Char} (h : parent? p = some q) :
    q.length < p.length := by
  have hle := length_trimTailReversed_le p.reverse
  have hhead := head?_trimTailReversed p.reverse
  simp only [parent?] at h
  generalize trimTailReversed p.reverse = r at h hle hhead
  cases r with
  | nil => simp at h
  | cons c r =>
    split at h
    · exact absurd h (by simp)
    · rename_i hne
      simp only [List.isEmpty_cons, Bool.false_or, decide_eq_true_eq] at hne
      have hc : c ≠ '/' := by
        rcases hhead with he | he
        · exact absurd he hne
        · simpa using he
      obtain rfl := Option.some.inj h
      have hdrop := length_trimTailReversed_le (r.dropWhile (· ≠ '/'))
      have hshort := (List.dropWhile_suffix (l := r) (fun c => decide (c ≠ '/'))).length_le
      simp only [List.dropWhile_cons, hc, ne_eq, not_false_eq_true, decide_true, if_true,
        List.length_reverse] at *
      simp only [List.length_cons] at hle
      omega

/-! ## Joining and relating paths -/

/-- A path below another one, or itself if it is absolute. -/
def join (base p : List Char) : List Char :=
  if isAbsolute p then p
  else if base.isEmpty || base.getLast? = some '/' then base ++ p
  else base ++ '/' :: p

/-- Takes off the front of a path, after some part, what says nothing. -/
def trimHead : List Char → List Char
  | '/' :: r => trimHead r
  | ['.'] => []
  | '.' :: '/' :: r => trimHead r
  | r => r

/-- The path without its first `n` parts. -/
def dropParts : Nat → List Char → List Char
  | 0, p => p
  | n + 1, p => dropParts n (trimHead (if isAbsolute p then p else p.dropWhile (· ≠ '/')))

/-- The rest of a path below a base, if its parts start with the base's. -/
def below? (base p : List Char) : Option (List Char) :=
  if (parts base).isPrefixOf (parts p) then some (trimTail (dropParts (parts base).length p))
  else none

/-- A path as shown to someone who works in the directory `here`. -/
def display (here p : List Char) : List Char :=
  match below? here p with
  | some [] => ['.']
  | some rest => rest
  | none => p

end PawnApi.Path
