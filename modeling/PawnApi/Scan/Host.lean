/-
  The host of a run: what a run can change.
-/
import PawnApi.Disk.Basic
import PawnApi.Notice

namespace PawnApi

/-- A disk, and the stream that status lines go to. -/
structure Host where
  disk : Disk
  stderr : Stream := {}
  deriving DecidableEq, Repr

namespace Host

/-- Writes a status line. -/
def emit (h : Host) (p : Printer) (n : Notice) : Host :=
  { h with stderr := p.emit h.stderr n }

/-- Writes status lines, one after the other. -/
def emitAll (h : Host) (p : Printer) (ns : List Notice) : Host :=
  { h with stderr := p.emitAll h.stderr ns }

@[simp] theorem disk_emit (h : Host) (p : Printer) (n : Notice) : (h.emit p n).disk = h.disk :=
  rfl

@[simp] theorem disk_emitAll (h : Host) (p : Printer) (ns : List Notice) :
    (h.emitAll p ns).disk = h.disk :=
  rfl

end Host

end PawnApi
