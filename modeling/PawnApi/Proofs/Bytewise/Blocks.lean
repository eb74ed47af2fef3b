/-
  PawnApi.Proofs.Bytewise.Blocks

  Documentation blocks found byte by byte.

  The scan counts braces and passes over comments and literals; outside all braces it
  notes where each documentation block starts and ends. Characters of several bytes are
  passed byte by byte (`run_blockLoop_inside`). Every turn leads on to a later offset
  (`lt_of_blockTurn`), the blocks are those of the outline (`topLevelBlocks_eq`), and each
  of them can be cut out together with the code behind it (`docChunks_eq`).
-/
import PawnApi.Proofs.Agreement
import PawnApi.Proofs.Bytewise.Lexer

namespace PawnApi.Bytewise

open PawnApi.Source

/-! ## The scan -/

/-- Where the scan for blocks stands, and what it has found. -/
structure BlockState where
  pos : Nat
  /-- How many braces are open. -/
  depth : Nat
  found : List (Nat × Nat)
  deriving DecidableEq, Repr

/-- The spans of the blocks, and the offset at which the scan ended. -/
abbrev Spans := List (Nat × Nat) × Nat

/-- Whether a documentation block opens at an offset, which is only looked at outside all
    braces. -/
def opensBlock (s : List Char) (depth pos : Nat) : Checked Bool :=
  if depth = 0 then do
    let rest ← excerptFrom s pos
    return ['/', '*', '*'].isPrefixOf rest
  else return false

/-- One turn of the scan: a comment, a literal or any other byte. -/
def blockTurn (s : List Char) (st : BlockState) : Checked (Turn BlockState Spans) := do
  let b ← byteAt (bytes s) st.pos
  if b = '/' ∧ byte? (bytes s) (st.pos + 1) = some '/' then do
    let rest ← excerptFrom s st.pos
    let stop := ((findChar? (· = '\n') rest).map (st.pos + ·)).getD (bytes s).length
    return .again { st with pos := stop }
  else if b = '/' ∧ byte? (bytes s) (st.pos + 1) = some '*' then do
    let body ← excerptFrom s (st.pos + 2)
    match findWord? ['*', '/'] body with
    | none => return .done (st.found, st.pos)
    | some n => do
      let stop := st.pos + 2 + n + 2
      let doc ← opensBlock s st.depth st.pos
      return .again ⟨stop, st.depth, if doc then st.found ++ [(st.pos, stop)] else st.found⟩
  else if b = '"' ∨ b = '\'' then do
    let stop ← quotedEnd (bytes s) st.pos b
    return .again { st with pos := stop }
  else return .again { st with pos := st.pos + 1, depth := braceDepth st.depth b }

theorem blockTurn_of_byteAt {s : List Char} {st : BlockState} {b : Char}
    (h : byteAt (bytes s) st.pos = .ok b) :
    blockTurn s st
      = if b = '/' ∧ byte? (bytes s) (st.pos + 1) = some '/' then do
          let rest ← excerptFrom s st.pos
          let stop := ((findChar? (· = '\n') rest).map (st.pos + ·)).getD (bytes s).length
          return .again { st with pos := stop }
        else if b = '/' ∧ byte? (bytes s) (st.pos + 1) = some '*' then do
          let body ← excerptFrom s (st.pos + 2)
          match findWord? ['*', '/'] body with
          | none => return .done (st.found, st.pos)
          | some n => do
            let stop := st.pos + 2 + n + 2
            let doc ← opensBlock s st.depth st.pos
            return .again ⟨stop, st.depth, if doc then st.found ++ [(st.pos, stop)] else st.found⟩
        else if b = '"' ∨ b = '\'' then do
          let stop ← quotedEnd (bytes s) st.pos b
          return .again { st with pos := stop }
        else .ok (.again { st with pos := st.pos + 1, depth := braceDepth st.depth b }) := by
  rw [blockTurn, h]
  rfl

/-- What is cut out from an offset on starts with the byte at that offset. -/
theorem head?_of_excerptFrom {s rest : List Char} {pos : Nat} {b : Char} (hb : b.toNat < 128)
    (hbyte : byteAt (bytes s) pos = .ok b) (h : excerptFrom s pos = .ok rest) :
    rest.head? = some b := by
  obtain ⟨a, c, rfl, rfl, hstop⟩ := excerpt_eq_ok_iff.1 h
  obtain rfl : c = [] := by
    by_contra hne
    have := byteSize_pos hne
    simp only [length_bytes, byteSize_append] at hstop
    omega
  rw [List.append_nil] at hbyte
  rw [← byte?_zero_eq_some_iff hb, ← byte?_append a, Nat.add_zero]
  rw [byteAt] at hbyte
  split at hbyte
  · rename_i e he
    rw [← Except.ok.inj hbyte]
    exact he
  · cases hbyte

/-- Every turn after which the scan goes on leads to a later offset. -/
theorem lt_of_blockTurn {s : List Char} {st st' : BlockState}
    (h : blockTurn s st = .ok (.again st')) : st.pos < st'.pos := by
  obtain ⟨b, hb, -⟩ := bind_eq_ok_iff.1 h
  have hlt := lt_length_of_byteAt hb
  rw [blockTurn_of_byteAt hb] at h
  split at h
  · -- the line feed stands behind the slash
    rename_i hslash
    obtain ⟨rest, hrest, h'⟩ := bind_eq_ok_iff.1 h
    cases h'
    have hhead := head?_of_excerptFrom (by rw [hslash.1]; decide) hb hrest
    cases hfind : findChar? (· = '\n') rest with
    | none => exact hlt
    | some n =>
      cases rest with
      | nil => cases hhead
      | cons c rest =>
        obtain rfl : c = '/' := (Option.some.inj hhead).trans hslash.1
        rw [findChar?, if_neg (by decide)] at hfind
        obtain ⟨k, -, rfl⟩ := Option.map_eq_some_iff.1 hfind
        show st.pos < st.pos + (('/').utf8Size + k)
        have : ('/').utf8Size = 1 := rfl
        omega
  split at h
  · obtain ⟨body, -, h'⟩ := bind_eq_ok_iff.1 h
    split at h'
    · cases h'
    · obtain ⟨doc, -, h''⟩ := bind_eq_ok_iff.1 h'
      cases h''
      simp only
      omega
  split at h
  · obtain ⟨stop, hstop, h'⟩ := bind_eq_ok_iff.1 h
    cases h'
    exact lt_of_quotedEnd hlt hstop
  · cases h
    exact Nat.lt_succ_self _

def blockLoop (s : List Char) : Loop BlockState Spans where
  left st := (bytes s).length - st.pos
  body := blockTurn s
  exit st := (st.found, (bytes s).length)
  progress hpos h := by
    have := lt_of_blockTurn h
    omega

/-- The spans of the documentation blocks outside all braces, and the offset at which the
    scan ended. -/
def topLevelBlocks (s : List Char) : Checked Spans :=
  (blockLoop s).run ⟨0, 0, []⟩

theorem run_blockLoop_of_blockTurn {s : List Char} {st st' : BlockState}
    (h : blockTurn s st = .ok (.again st')) : (blockLoop s).run st = (blockLoop s).run st' := by
  obtain ⟨b, hb, -⟩ := bind_eq_ok_iff.1 h
  exact Loop.run_of_again (Nat.sub_pos_of_lt (lt_length_of_byteAt hb)) h

/-! ## The blocks that are found -/

/-- Inside a character the scan goes on to its end. -/
theorem run_blockLoop_inside {c : Char} (hc : 128 ≤ c.toNat) (a r : List Char) {k : Nat}
    (hk : k ≤ c.utf8Size) (depth : Nat) (found : List (Nat × Nat)) :
    (blockLoop (a ++ c :: r)).run ⟨byteSize a + k, depth, found⟩
      = (blockLoop (a ++ c :: r)).run ⟨byteSize a + c.utf8Size, depth, found⟩ := by
  -- by the number of bytes up to the end of the character
  obtain ⟨n, hn⟩ := Nat.exists_eq_add_of_le hk
  induction n generalizing k with
  | zero => rw [hn, Nat.add_zero]
  | succ n ih =>
    obtain ⟨b, hb, hbig⟩ := exists_byteAt_append hc a r (k := k) (by omega)
    have hne : ∀ e : Char, e.toNat < 128 → b ≠ e := by
      rintro e he rfl
      omega
    have hturn : blockTurn (a ++ c :: r) ⟨byteSize a + k, depth, found⟩
        = .ok (.again ⟨byteSize a + k + 1, depth, found⟩) := by
      rw [blockTurn_of_byteAt hb, if_neg fun h => hne _ (by decide) h.1,
        if_neg fun h => hne _ (by decide) h.1,
        if_neg (not_or.2 ⟨hne _ (by decide), hne _ (by decide)⟩), braceDepth,
        if_neg (hne _ (by decide)), if_neg (hne _ (by decide))]
    rw [run_blockLoop_of_blockTurn hturn, Nat.add_assoc]
    exact ih (by omega) (by omega)

/-- The spans of the blocks of an outline whose text starts at an offset. -/
def spansFrom (n : Nat) (o : Outline) : List (Nat × Nat) :=
  o.sites.map fun p => (n + byteSize p.1, n + byteSize p.1 + byteSize p.2)

theorem spansFrom_zero (o : Outline) : spansFrom 0 o = o.spans := by
  simp [spansFrom, Outline.spans]

theorem spansFrom_push (n : Nat) (s : List Char) (o : Outline) :
    spansFrom n (o.push s) = spansFrom (n + byteSize s) o := by
  rw [spansFrom, spansFrom, Outline.sites, Outline.push, Outline.sitesFrom_append_left,
    List.map_map]
  simp only [Function.comp_def, byteSize_append, Nat.add_assoc]
  rfl

theorem spansFrom_document (n : Nat) (s : List Char) (o : Outline) :
    spansFrom n (o.document s) = (n, n + byteSize s) :: spansFrom (n + byteSize s) o := by
  rw [← spansFrom_push]
  rfl

theorem limit_push (s : List Char) (o : Outline) : (o.push s).limit = byteSize s + o.limit := by
  simp [Outline.limit, Outline.push]

theorem limit_document (s : List Char) (o : Outline) :
    (o.document s).limit = byteSize s + o.limit := by
  simp [Outline.limit, Outline.document]

theorem blockTurn_line (a r : List Char) (depth : Nat) (found : List (Nat × Nat)) :
    blockTurn (a ++ '/' :: '/' :: r) ⟨byteSize a, depth, found⟩
      = .ok (.again ⟨byteSize a + byteSize ('/' :: '/' :: (splitLine r).1), depth, found⟩) := by
  have hbyte := byteAt_append_of_lt (c := '/') (by decide) a ('/' :: r)
  have hnext := (byte?_second_eq_some_iff (c := '/') (e := '/') (by decide) (by decide) a
    ('/' :: r)).2 rfl
  have htake := takeWhile_line (not_mem_splitLine r) (endOfLine_splitLine r)
  rw [append_splitLine] at htake
  rw [blockTurn_of_byteAt hbyte, if_pos ⟨rfl, hnext⟩, excerptFrom_append, ok_bind, length_bytes,
    byteSize_append, getD_map_add, getD_findChar?, htake]
  rfl

/-- Whether a block opens is seen by the star behind the opening of its comment. -/
theorem opensBlock_append (a r : List Char) (depth : Nat) :
    opensBlock (a ++ '/' :: '*' :: r) depth (byteSize a)
      = .ok (decide (depth = 0 ∧ r.head? = some '*')) := by
  rw [opensBlock]
  by_cases hd : depth = 0
  · rw [if_pos hd, excerptFrom_append, ok_bind]
    refine congrArg Except.ok ?_
    cases r with
    | nil => simp [List.isPrefixOf]
    | cons c r =>
      rw [Bool.eq_iff_iff]
      simp only [List.isPrefixOf, beq_self_eq_true, Bool.true_and, Bool.and_true, beq_iff_eq, hd,
        true_and, List.head?_cons, Option.some.injEq, decide_eq_true_eq]
      exact eq_comm
  · rw [if_neg hd]
    simp [hd]
    rfl

theorem blockTurn_block {r body after : List Char} (h : closeComment? r = some (body, after))
    (a : List Char) (depth : Nat) (found : List (Nat × Nat)) :
    blockTurn (a ++ '/' :: '*' :: r) ⟨byteSize a, depth, found⟩
      = .ok (.again ⟨byteSize a + byteSize ('/' :: '*' :: body), depth,
          if depth = 0 ∧ r.head? = some '*' then
            found ++ [(byteSize a, byteSize a + byteSize ('/' :: '*' :: body))]
          else found⟩) := by
  have hbyte := byteAt_append_of_lt (c := '/') (by decide) a ('*' :: r)
  have hnext := (byte?_second_eq_some_iff (c := '/') (e := '*') (by decide) (by decide) a
    ('*' :: r)).2 rfl
  have hstop : byteSize a + 2 + (byteSize body - 2) + 2
      = byteSize a + byteSize ('/' :: '*' :: body) := by
    have := two_le_byteSize_of_closeComment? h
    simp only [byteSize_cons, show ('/').utf8Size = 1 from rfl, show ('*').utf8Size = 1 from rfl]
    omega
  rw [blockTurn_of_byteAt hbyte, if_neg (by rw [hnext]; decide), if_pos ⟨rfl, hnext⟩,
    excerptFrom_pair (by decide) (by decide), ok_bind, findWord?_starSlash, h]
  simp only [Option.map_some, hstop, opensBlock_append, ok_bind, decide_eq_true_eq]
  rfl

theorem blockTurn_unclosed {r : List Char} (h : closeComment? r = none) (a : List Char)
    (depth : Nat) (found : List (Nat × Nat)) :
    blockTurn (a ++ '/' :: '*' :: r) ⟨byteSize a, depth, found⟩
      = .ok (.done (found, byteSize a)) := by
  have hbyte := byteAt_append_of_lt (c := '/') (by decide) a ('*' :: r)
  have hnext := (byte?_second_eq_some_iff (c := '/') (e := '*') (by decide) (by decide) a
    ('*' :: r)).2 rfl
  rw [blockTurn_of_byteAt hbyte, if_neg (by rw [hnext]; decide), if_pos ⟨rfl, hnext⟩,
    excerptFrom_pair (by decide) (by decide), ok_bind, findWord?_starSlash, h]
  rfl

theorem blockTurn_literal {c : Char} (hc : c = '"' ∨ c = '\'') (a r : List Char) (depth : Nat)
    (found : List (Nat × Nat)) :
    blockTurn (a ++ c :: r) ⟨byteSize a, depth, found⟩
      = .ok (.again ⟨byteSize a + byteSize (c :: (splitLiteral c r).1), depth, found⟩) := by
  have hlt : c.toNat < 128 := by rcases hc with rfl | rfl <;> decide
  have hslash : c ≠ '/' := by rcases hc with rfl | rfl <;> decide
  rw [blockTurn_of_byteAt (byteAt_append_of_lt hlt a r), if_neg fun h => hslash h.1,
    if_neg fun h => hslash h.1, if_pos hc, quotedEnd_append hc, ok_bind]
  rfl

/-- Any other character is passed over, and a brace is counted. -/
theorem run_blockLoop_plain {c : Char} {r : List Char} (ho : opensComment (c :: r) = false)
    (hq : ¬ (c = '"' ∨ c = '\'')) (a : List Char) (depth : Nat) (found : List (Nat × Nat)) :
    (blockLoop (a ++ c :: r)).run ⟨byteSize a, depth, found⟩
      = (blockLoop (a ++ c :: r)).run
          ⟨byteSize a + c.utf8Size, braceDepth depth c, found⟩ := by
  rcases Nat.lt_or_ge c.toNat 128 with hlt | hge
  · have hnext : ∀ e : Char, e.toNat < 128 → opensComment ['/', e] = true →
        ¬ (c = '/' ∧ byte? (bytes (a ++ c :: r)) (byteSize a + 1) = some e) := by
      rintro e he hopens ⟨rfl, hsecond⟩
      exact byte?_second_ne he hopens ho a hsecond
    refine run_blockLoop_of_blockTurn ?_
    rw [blockTurn_of_byteAt (byteAt_append_of_lt hlt a r), if_neg (hnext '/' (by decide) rfl),
      if_neg (hnext '*' (by decide) rfl), if_neg hq, Text.Utf8.utf8Size_of_lt hlt]
  · -- each byte of the character is passed over in a turn of its own
    have hne : ∀ e : Char, e.toNat < 128 → c ≠ e := by
      rintro e he rfl
      omega
    have hdepth : braceDepth depth c = depth := by
      rw [braceDepth, if_neg (hne _ (by decide)), if_neg (hne _ (by decide))]
    rw [hdepth]
    exact run_blockLoop_inside (k := 0) hge a r (Nat.zero_le _) depth found

/-- The scan finds the blocks of the outline and ends where the outline ends. -/
theorem run_blockLoop (depth : Nat) (a r : List Char) (found : List (Nat × Nat)) :
    (blockLoop (a ++ r)).run ⟨byteSize a, depth, found⟩
      = .ok (found ++ spansFrom (byteSize a) (outlineFrom depth r),
          byteSize a + (outlineFrom depth r).limit) := by
  -- the cases are those of the outline: `a` is what the scan has passed
  fun_induction outlineFrom depth r generalizing a found with
  | case1 depth r ih =>
    have hrest := ih (a ++ '/' :: '/' :: (splitLine r).1) found
    rw [run_blockLoop_of_blockTurn (blockTurn_line a r depth found), spansFrom_push, limit_push,
      ← Nat.add_assoc, ← byteSize_append, ← hrest]
    simp [append_splitLine]
  | case2 depth r body after h o comment hdoc ih =>
    -- a documentation block outside all braces
    have hrest := ih (a ++ comment) (found ++ [(byteSize a, byteSize a + byteSize comment)])
    have hturn := blockTurn_block h a depth found
    rw [if_pos hdoc] at hturn
    rw [run_blockLoop_of_blockTurn hturn, spansFrom_document, limit_document, ← Nat.add_assoc]
    rw [byteSize_append, List.append_assoc, List.append_assoc] at hrest
    simpa [comment, append_of_closeComment? h] using hrest
  | case3 depth r body after h o comment hdoc ih =>
    have hrest := ih (a ++ comment) found
    have hturn := blockTurn_block h a depth found
    rw [if_neg hdoc] at hturn
    rw [run_blockLoop_of_blockTurn hturn, spansFrom_push, limit_push, ← Nat.add_assoc]
    rw [byteSize_append, List.append_assoc] at hrest
    simpa [comment, append_of_closeComment? h] using hrest
  | case4 depth r h =>
    -- an unclosed comment stops the scan where it opens
    have hleft : 0 < (blockLoop (a ++ '/' :: '*' :: r)).left ⟨byteSize a, depth, found⟩ :=
      Nat.sub_pos_of_lt (lt_length_of_byteAt
        (byteAt_append_of_lt (c := '/') (by decide) a ('*' :: r)))
    rw [Loop.run_of_done hleft (blockTurn_unclosed h a depth found)]
    simp [spansFrom, Outline.sites, Outline.sitesFrom, Outline.limit]
  | case5 depth c r h₁ h₂ hq ih =>
    have hrest := ih (a ++ c :: (splitLiteral c r).1) found
    rw [run_blockLoop_of_blockTurn (blockTurn_literal hq a r depth found), spansFrom_push,
      limit_push, ← Nat.add_assoc]
    rw [byteSize_append, List.append_assoc, List.cons_append, append_splitLiteral] at hrest
    exact hrest
  | case6 depth c r h₁ h₂ hq ih =>
    have hrest := ih (a ++ [c]) found
    rw [run_blockLoop_plain (opensComment_eq_false_iff.2 ⟨h₁, h₂⟩) hq, spansFrom_push, limit_push,
      ← Nat.add_assoc]
    rw [byteSize_append, List.append_assoc] at hrest
    exact hrest
  | case7 depth =>
    rw [List.append_nil, Loop.run_of_left_eq_zero]
    · simp [blockLoop, spansFrom, Outline.sites, Outline.sitesFrom, Outline.limit]
    · simp [blockLoop]

theorem topLevelBlocks_eq (s : List Char) :
    topLevelBlocks s = .ok ((outline s).spans, (outline s).limit) := by
  have h := run_blockLoop 0 [] s []
  rw [byteSize_nil, spansFrom_zero, Nat.zero_add] at h
  exact h

/-! ## The chunks -/

/-- Cuts out blocks with the code behind each, up to the next one or the limit. -/
def cutBlocks (s : List Char) (limit : Nat) :
    List (Nat × Nat) → Checked (List (List Char × List Char))
  | [] => .ok []
  | b :: bs => do
    let comment ← excerpt s b.1 b.2
    let body ← excerpt s b.2 ((bs.head?.map Prod.fst).getD limit)
    let more ← cutBlocks s limit bs
    return (comment, Text.trimStart body) :: more

/-- The documentation blocks of a text, each with its code. -/
def docChunks (s : List Char) : Checked (List (List Char × List Char)) := do
  let (blocks, limit) ← topLevelBlocks s
  cutBlocks s limit blocks

/-- Each block and the code behind it are cut out between places where characters start. -/
theorem cutBlocks_sites (before : List Char) (cs : List Chunk) (rest : List Char) :
    cutBlocks (before ++ ((cs.flatMap fun c => c.comment ++ c.body) ++ rest))
        (byteSize (before ++ cs.flatMap fun c => c.comment ++ c.body))
        ((Outline.sitesFrom before cs).map fun p => (byteSize p.1, byteSize p.1 + byteSize p.2))
      = .ok (cs.map fun c => (c.comment, c.code)) := by
  induction cs generalizing before with
  | nil => rfl
  | cons c cs ih =>
    have hmore := ih (before ++ (c.comment ++ c.body))
    -- the code ends where the next block starts, or at the limit
    have hnext : (((Outline.sitesFrom (before ++ (c.comment ++ c.body)) cs).map fun p =>
        (byteSize p.1, byteSize p.1 + byteSize p.2)).head?.map Prod.fst).getD
          (byteSize (before ++ (c :: cs).flatMap fun c => c.comment ++ c.body))
        = byteSize (before ++ c.comment) + byteSize c.body := by
      cases cs with
      | nil => simp [Outline.sitesFrom, Nat.add_assoc]
      | cons d ds => simp [Outline.sitesFrom, Nat.add_assoc]
    have hcomment := excerpt_append before c.comment
      (c.body ++ ((cs.flatMap fun c => c.comment ++ c.body) ++ rest))
    have hbody := excerpt_append (before ++ c.comment) c.body
      ((cs.flatMap fun c => c.comment ++ c.body) ++ rest)
    simp only [List.flatMap_cons, List.append_assoc, byteSize_append] at *
    rw [Outline.sitesFrom, List.map_cons, cutBlocks, hnext, hcomment, ok_bind, hbody, ok_bind,
      hmore]
    rfl

/-- Every block is cut out with its code. -/
theorem docChunks_eq (s : List Char) :
    docChunks s = .ok ((chunks s).map fun c => (c.comment, c.code)) := by
  have hcut := cutBlocks_sites (outline s).lead (chunks s) (outline s).rest
  have htext : (outline s).text = s := Outline.text_outlineFrom 0 s
  rw [Outline.text, List.append_assoc] at htext
  rw [chunks, htext] at hcut
  rw [docChunks, topLevelBlocks_eq, ok_bind]
  exact hcut

end PawnApi.Bytewise
