/-
  PawnApi.Proofs.Effects

  What a run does to the disk.

  A run writes status lines all the while, and each of them leaves the disk alone. So the
  files are read from the disk that the run started with, and what is collected is fixed by
  that disk (`collects_collect`, `Collects.unique`), whatever prints the lines and whatever
  becomes of them. A run changes nothing without a directory or with a bad manifest, and
  otherwise delivers the entries of the files that can be read (`run_effects`).
-/
import Mathlib.Data.List.Basic
import PawnApi.Proofs.Delivery

namespace PawnApi.Scan

/-! ## Collecting entries -/

/-- The entries of a file, if it can be read. -/
def entries? (d : Disk) (f : SourceFile) : Option (List Entry) :=
  match d.read f.path with
  | .ok content => some (Include.parse (Text.Utf8.decodeLossy content) f.name)
  | .error _ => none

/-- Why a file cannot be read, if it cannot. -/
def failure? (d : Disk) (f : SourceFile) : Option Failure :=
  match d.read f.path with
  | .ok _ => none
  | .error fault => some (.disk f.path .readFile fault)

/-- The entries of the files that can be read, in order. -/
def entriesOf (d : Disk) (fs : List SourceFile) : List Entry :=
  (fs.filterMap (entries? d)).flatten

/-- The collection `c` is what the files `fs` come to: a file that cannot be read is set
    aside with the reason and adds nothing. -/
structure Collects (d : Disk) (fs : List SourceFile) (c : Collection) : Prop where
  entries_eq : c.entries = entriesOf d fs
  failed_eq : c.failed = fs.filterMap fun f => (failure? d f).map fun e => (f, e)
  count_eq : c.scanned + c.failed.length = fs.length

/-- The files and what is read of them fix the collection. -/
theorem Collects.unique {d : Disk} {fs : List SourceFile} {c c' : Collection}
    (h : Collects d fs c) (h' : Collects d fs c') : c' = c := by
  obtain ⟨entries, scanned, failed⟩ := c
  obtain ⟨entries', scanned', failed'⟩ := c'
  have hentries : entries' = entries := h'.entries_eq.trans h.entries_eq.symm
  have hfailed : failed' = failed := h'.failed_eq.trans h.failed_eq.symm
  have hcount : scanned + failed.length = fs.length := h.count_eq
  have hcount' : scanned' + failed'.length = fs.length := h'.count_eq
  subst hentries hfailed
  obtain rfl : scanned' = scanned := by omega
  rfl

section Step

variable {d : Disk} {fs : List SourceFile} {c : Collection} {f : SourceFile}

/-- A file that can be read is added. -/
theorem Collects.add_ok (h : Collects d fs c) {content : List UInt8}
    (hread : d.read f.path = .ok content) :
    Collects d (fs ++ [f])
      (c.add f (.ok (Include.parse (Text.Utf8.decodeLossy content) f.name))) := by
  have hentries : entries? d f = some (Include.parse (Text.Utf8.decodeLossy content) f.name) := by
    rw [entries?, hread]
  have hfailure : failure? d f = none := by
    rw [failure?, hread]
  have hcount := h.count_eq
  refine ⟨?_, ?_, ?_⟩
  · simp [Collection.add, entriesOf, hentries, h.entries_eq]
  · simp [Collection.add, hfailure, h.failed_eq]
  · simp only [Collection.add, List.length_append, List.length_singleton]
    omega

/-- A file that cannot be read is set aside. -/
theorem Collects.add_error (h : Collects d fs c) {fault : Fault}
    (hread : d.read f.path = .error fault) :
    Collects d (fs ++ [f]) (c.add f (.error (.disk f.path .readFile fault))) := by
  have hentries : entries? d f = none := by
    rw [entries?, hread]
  have hfailure : failure? d f = some (.disk f.path .readFile fault) := by
    rw [failure?, hread]
  have hcount := h.count_eq
  refine ⟨?_, ?_, ?_⟩
  · simp [Collection.add, entriesOf, hentries, h.entries_eq]
  · simp [Collection.add, hfailure, h.failed_eq]
  · simp only [Collection.add, List.length_append, List.length_singleton]
    omega

end Step

/-- One file more: the status lines leave the disk alone, and the file is added or set
    aside. -/
theorem Collects.readNext {d : Disk} {fs : List SourceFile} {s : Host × Collection}
    (hd : s.1.disk = d) (h : Collects d fs s.2) (p : Printer) (f : SourceFile) :
    (Collection.readNext p s f).1.disk = d ∧
      Collects d (fs ++ [f]) (Collection.readNext p s f).2 := by
  subst hd
  simp only [Collection.readNext, Collection.scanFile, Host.disk_emit]
  cases hread : s.1.disk.read f.path with
  | ok content => exact ⟨rfl, h.add_ok hread⟩
  | error fault => exact ⟨rfl, h.add_error hread⟩

theorem Collects.foldl {d : Disk} {fs : List SourceFile} {s : Host × Collection}
    (hd : s.1.disk = d) (h : Collects d fs s.2) (p : Printer) (gs : List SourceFile) :
    (gs.foldl (Collection.readNext p) s).1.disk = d ∧
      Collects d (fs ++ gs) (gs.foldl (Collection.readNext p) s).2 := by
  -- the files read so far are `fs`; each step moves one over from `gs`
  induction gs generalizing fs s with
  | nil =>
    rw [List.append_nil]
    exact ⟨hd, h⟩
  | cons g gs ih =>
    obtain ⟨hd', h'⟩ := h.readNext hd p g
    rw [List.append_cons]
    exact ih hd' h'

theorem collects_collect (p : Printer) (h : Host) (fs : List SourceFile) :
    (Collection.collect p h fs).1.disk = h.disk ∧
      Collects h.disk fs (Collection.collect p h fs).2 := by
  have hnone : Collects h.disk [] {} := ⟨rfl, rfl, rfl⟩
  exact Collects.foldl (s := (h, {})) rfl hnone p fs

theorem collects_survey (s : Setup) (h : Host) (found : Discovery) :
    (survey s h found).1.disk = h.disk ∧ Collects h.disk found.files (survey s h found).2 := by
  simp only [survey, Host.disk_emit, Host.disk_emitAll]
  exact collects_collect s.printer (h.emit s.printer _) found.files

/-! ## The manifest -/

/-- Why the manifest of a directory, a file, is of no use. -/
inductive BadManifest (reader : List Char → Option Manifest) (d : Disk) (root : List Char) :
    Failure → Prop where
  | unreadable {path : List Char} {fault : Fault}
      (hpath : path = Path.join root Manifest.fileName.toList) (hfile : d.isFile path = true)
      (h : d.readText path = .error fault) :
      BadManifest reader d root (.disk path .readManifest fault)
  | malformed {path text : List Char}
      (hpath : path = Path.join root Manifest.fileName.toList) (hfile : d.isFile path = true)
      (h : d.readText path = .ok text) (htext : reader text = none) :
      BadManifest reader d root .badManifest

section Manifest

variable {reader : List Char → Option Manifest} {d : Disk} {root : List Char}

theorem manifestOf_eq_error_iff {e : Failure} :
    Discovery.manifestOf reader d root = .error e ↔ BadManifest reader d root e := by
  unfold Discovery.manifestOf Discovery.loadManifest
  dsimp only
  constructor
  · intro h
    split at h
    · rename_i hfile
      cases hread : d.readText (Path.join root Manifest.fileName.toList) with
      | error fault =>
        simp only [hread, Except.map, Except.error.injEq] at h
        subst h
        exact .unreadable rfl hfile hread
      | ok text =>
        cases htext : reader text with
        | none =>
          simp only [hread, htext, Except.map, Except.error.injEq] at h
          subst h
          exact .malformed rfl hfile hread htext
        | some m => simp [hread, htext, Except.map] at h
    · cases h
  · intro h
    cases h with
    | unreadable hpath hfile hread =>
      subst hpath
      simp [hfile, hread, Except.map]
    | malformed hpath hfile hread htext =>
      subst hpath
      simp [hfile, hread, htext, Except.map]

theorem BadManifest.isFile {e : Failure} (h : BadManifest reader d root e) :
    d.isFile (Path.join root Manifest.fileName.toList) = true := by
  cases h with
  | unreadable hpath hfile => exact hpath ▸ hfile
  | malformed hpath hfile => exact hpath ▸ hfile

theorem discover_of_not_isDir (h : d.isDir root = false) :
    Discovery.discover reader d root = .error (.noDirectory root) := by
  rw [Discovery.discover, h]
  rfl

theorem discover_eq_map (h : d.isDir root = true) :
    Discovery.discover reader d root = (Discovery.manifestOf reader d root).map fun m =>
      ⟨root, m.getD {}, m.isSome, Discovery.filesIn d (m.getD {}) root⟩ := by
  rw [Discovery.discover, h]
  cases Discovery.manifestOf reader d root <;> rfl

theorem discover_of_badManifest {e : Failure} (h : d.isDir root = true)
    (he : BadManifest reader d root e) : Discovery.discover reader d root = .error e := by
  rw [discover_eq_map h, manifestOf_eq_error_iff.mpr he]
  rfl

theorem exists_discover (h : d.isDir root = true) (hm : ∀ e, ¬ BadManifest reader d root e) :
    ∃ found, Discovery.discover reader d root = .ok found := by
  rw [discover_eq_map h]
  cases hmanifest : Discovery.manifestOf reader d root with
  | error e => exact absurd (manifestOf_eq_error_iff.mp hmanifest) (hm e)
  | ok m => exact ⟨_, rfl⟩

end Manifest

/-! ## The whole run -/

/-- A run that found its files writes what they come to. Neither the lines written meanwhile
    nor what lint finds have a part in it. -/
theorem finish_eq (s : Setup) {h : Host} {d : Disk} (hd : h.disk = d) {found : Discovery}
    (asked : Option String) {c : Collection} (hc : Collects d found.files c) :
    ((finish s h found asked).disk, (finish s h found asked).result)
        = writeInventory d c.entries found.manifest.pretty
            (found.manifest.outputFile asked).toList ∧
      (finish s h found asked).collection = some c := by
  subst hd
  obtain ⟨hdisk, hcollects⟩ := collects_survey s h found
  have hunique : (survey s h found).2 = c := hc.unique hcollects
  unfold finish
  dsimp only
  rw [hdisk, hunique]
  cases writeInventory h.disk c.entries found.manifest.pretty
      (found.manifest.outputFile asked).toList with
  | mk d' result => cases result <;> exact ⟨rfl, rfl⟩

/-- What a run that found its files leaves behind: the inventory of the files that can be
    read, on its way to the file that was asked for. -/
structure Completes (d : Disk) (found : Discovery) (out : List Char) (o : Outcome) : Prop where
  /-- The run collected what the files come to. -/
  collects : ∃ c, o.collection = some c ∧ Collects d found.files c
  /-- It ends as the delivery of the inventory does. -/
  delivers : d.Delivers out
    (Text.Utf8.encode (Entry.renderAll found.manifest.pretty (entriesOf d found.files)))
    o.disk o.result
  writesOnly : d.WritesOnly out o.disk
  /-- If it ends well, the file holds the inventory. -/
  content_eq : o.result = .ok () → ∃ l, o.disk.find out = .ok (l, .file
    (Text.Utf8.encode (Entry.renderAll found.manifest.pretty (entriesOf d found.files))))

theorem finish_completes (s : Setup) (h : Host) (found : Discovery) (asked : Option String) :
    Completes h.disk found (found.manifest.outputFile asked).toList (finish s h found asked) := by
  obtain ⟨-, hcollects⟩ := collects_survey s h found
  obtain ⟨hwrites, hcollection⟩ := finish_eq s rfl asked hcollects
  have hdelivers := writeInventory_delivers h.disk (survey s h found).2.entries
    found.manifest.pretty (found.manifest.outputFile asked).toList
  rw [← hwrites, hcollects.entries_eq] at hdelivers
  refine ⟨⟨_, hcollection, hcollects⟩, hdelivers, hdelivers.writesOnly, ?_⟩
  intro hok
  apply Disk.Delivers.exists_find
  rw [← hok]
  exact hdelivers

/-- The same disk and the same reader of manifests give the same disk, collection and
    result. -/
theorem run_congr {s s' : Setup} {h h' : Host} (hs : s'.reader = s.reader)
    (hd : h'.disk = h.disk) (a : Arguments) :
    (run s' h' a).disk = (run s h a).disk ∧
      (run s' h' a).collection = (run s h a).collection ∧
      (run s' h' a).result = (run s h a).result := by
  unfold run
  rw [hs, hd]
  cases Discovery.discover s.reader h.disk a.includeDir.toList with
  | error e =>
    cases e with
    | noDirectory path => exact ⟨hd, rfl, rfl⟩
    | disk path task fault => exact ⟨hd, rfl, rfl⟩
    | badManifest => exact ⟨hd, rfl, rfl⟩
  | ok found =>
    obtain ⟨-, hcollects⟩ := collects_survey s h found
    obtain ⟨hwrites, hcollection⟩ := finish_eq s rfl a.output hcollects
    obtain ⟨hwrites', hcollection'⟩ := finish_eq s' hd a.output hcollects
    obtain ⟨hdisk, hresult⟩ := Prod.mk.inj (hwrites'.trans hwrites.symm)
    exact ⟨hdisk, hcollection'.trans hcollection.symm, hresult⟩

/-- What a run does to the disk. -/
theorem run_effects (s : Setup) (h : Host) (a : Arguments) :
    -- Without a directory to scan a run changes nothing and does not fail.
    (h.disk.isDir a.includeDir.toList = false →
      (run s h a).disk = h.disk ∧ (run s h a).result = .ok ()) ∧
    -- With a manifest that is of no use it changes nothing and fails for that reason.
    (∀ e, h.disk.isDir a.includeDir.toList = true →
      BadManifest s.reader h.disk a.includeDir.toList e →
      (run s h a).disk = h.disk ∧ (run s h a).result = .error e) ∧
    -- Otherwise it delivers the entries of the files that it finds and can read.
    (h.disk.isDir a.includeDir.toList = true →
      (∀ e, ¬ BadManifest s.reader h.disk a.includeDir.toList e) →
      ∃ found, Discovery.discover s.reader h.disk a.includeDir.toList = .ok found ∧
        Completes h.disk found (found.manifest.outputFile a.output).toList (run s h a)) ∧
    -- No printer, no linter and no stream for the status lines makes a difference.
    ∀ (p : Printer) (lint : List Entry → List Lint.Finding) (stderr : Stream),
      (run ⟨p, s.reader, lint⟩ ⟨h.disk, stderr⟩ a).disk = (run s h a).disk ∧
      (run ⟨p, s.reader, lint⟩ ⟨h.disk, stderr⟩ a).collection = (run s h a).collection ∧
      (run ⟨p, s.reader, lint⟩ ⟨h.disk, stderr⟩ a).result = (run s h a).result := by
  refine ⟨?_, ?_, ?_, ?_⟩
  · intro hdir
    rw [run, discover_of_not_isDir hdir]
    exact ⟨rfl, rfl⟩
  · intro e hdir he
    rw [run, discover_of_badManifest hdir he]
    cases he <;> exact ⟨rfl, rfl⟩
  · intro hdir hmanifest
    obtain ⟨found, hfound⟩ := exists_discover hdir hmanifest
    refine ⟨found, hfound, ?_⟩
    rw [run, hfound]
    exact finish_completes s h found a.output
  · intro p lint stderr
    apply run_congr
    · rfl
    · rfl

/-- A directory with a file that can be read and one that cannot. The first status line is
    not taken. -/
def sampleHost : Host where
  disk :=
    { items := [(["w"], .dir), (["w", "inc"], .dir),
        (["w", "inc", "a.inc"], .file (Text.Utf8.encode "/** A. */\nnative int A();\n")),
        (["w", "inc", "b.inc"], .file (Text.Utf8.encode "/** B. */\nnative int B();\n"))]
      here := ["w"]
      refusals := [⟨["w", "inc", "b.inc"], .read, .denied, 0⟩] }
  stderr := { answers := [some .deviceError] }

/-- The same directory with a manifest that cannot be read. -/
def sealedHost : Host where
  disk :=
    { sampleHost.disk.put ["w", "inc", "incscan.yaml"] (.file []) with
      refusals := [⟨["w", "inc", "incscan.yaml"], .read, .denied, 0⟩] }

/-- The inventory goes two directories down, neither of which is there. -/
def sampleArguments : Arguments where
  includeDir := "inc"
  output := some "out/deep/api.json"

def sampleSetup : Setup :=
  .standard ⟨true, false⟩

/-- The file that cannot be read is set aside and the run ends well, with the inventory of
    the other one in a new directory; a silent printer changes nothing about that. The
    manifest that cannot be read ends the run before it changes anything. -/
theorem run_effects_sample :
    (sampleHost.disk.isDir "inc".toList = true ∧
      ∀ e, ¬ BadManifest sampleSetup.reader sampleHost.disk "inc".toList e) ∧
    (∃ found c l, Discovery.discover sampleSetup.reader sampleHost.disk "inc".toList = .ok found ∧
      found.files.map SourceFile.name = ["a.inc", "b.inc"] ∧
      (run sampleSetup sampleHost sampleArguments).collection = some c ∧
      c.entries.map Entry.name = ["A"] ∧ c.scanned = 1 ∧ c.failed.map (·.1.name) = ["b.inc"] ∧
      (run sampleSetup sampleHost sampleArguments).result = .ok () ∧
      (run sampleSetup sampleHost sampleArguments).disk.find "out/deep/api.json".toList
        = .ok (l, .file (Text.Utf8.encode (Entry.renderAll found.manifest.pretty c.entries)))) ∧
    (run ⟨.silent, sampleSetup.reader, sampleSetup.lint⟩ ⟨sampleHost.disk, {}⟩
      sampleArguments).disk = (run sampleSetup sampleHost sampleArguments).disk ∧
    (run sampleSetup sealedHost sampleArguments).disk = sealedHost.disk ∧
    (run sampleSetup sealedHost sampleArguments).result
      = .error (.disk "inc/incscan.yaml".toList .readManifest .denied) := by
  obtain ⟨-, -, hcompletes, hsame⟩ := run_effects sampleSetup sampleHost sampleArguments
  obtain ⟨-, hbad, -, -⟩ := run_effects sampleSetup sealedHost sampleArguments
  have hdir : sampleHost.disk.isDir "inc".toList = true := by decide +kernel
  have hmanifest : ∀ e, ¬ BadManifest sampleSetup.reader sampleHost.disk "inc".toList e := by
    intro e he
    have hnone : sampleHost.disk.isFile (Path.join "inc".toList Manifest.fileName.toList)
        = false := by
      decide +kernel
    exact absurd (hnone.symm.trans he.isFile) (by simp)
  have hsealed : BadManifest sampleSetup.reader sealedHost.disk "inc".toList
      (.disk "inc/incscan.yaml".toList .readManifest .denied) :=
    .unreadable (by decide +kernel) (by decide +kernel) (by decide +kernel)
  have hresult : (run sampleSetup sampleHost sampleArguments).result = .ok () := by
    decide +kernel
  have hcounts : ((run sampleSetup sampleHost sampleArguments).collection.map fun c =>
      (c.entries.map Entry.name, c.scanned, c.failed.map (·.1.name)))
        = some (["A"], 1, ["b.inc"]) := by
    decide +kernel
  have hnames : ((Discovery.discover sampleSetup.reader sampleHost.disk "inc".toList).toOption.map
      fun found => found.files.map SourceFile.name) = some ["a.inc", "b.inc"] := by
    decide +kernel
  obtain ⟨found, hfound, hc⟩ := hcompletes hdir hmanifest
  obtain ⟨c, hcollection, hcollects⟩ := hc.collects
  obtain ⟨l, hfind⟩ := hc.content_eq hresult
  rw [← hcollects.entries_eq] at hfind
  rw [hcollection, Option.map_some, Option.some.injEq, Prod.mk.injEq, Prod.mk.injEq] at hcounts
  obtain ⟨hentries, hscanned, hfailed⟩ := hcounts
  rw [show Discovery.discover sampleSetup.reader sampleHost.disk "inc".toList = .ok found
    from hfound] at hnames
  refine ⟨⟨hdir, hmanifest⟩, ⟨found, c, l, hfound, Option.some.inj hnames, hcollection, hentries,
    hscanned, hfailed, hresult, hfind⟩, (hsame _ _ _).1, ?_⟩
  exact hbad _ (by decide +kernel) hsealed

end PawnApi.Scan
