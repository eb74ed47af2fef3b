/-
  Notices: the status lines of a run.

  A notice is a verb, a message and sometimes an aside. A printer decides how notices
  look: verbs stand right-aligned in a column of twelve, and colour, if it is on, marks
  the verb and dims the aside. A silent printer drops every line.

  Lines go to a stream, which may not take them. The printer does not look at what became
  of a line.
-/
import PawnApi.Disk.Fault
import PawnApi.Lint

namespace PawnApi

/-- What a status line is about. -/
inductive Status where
  /-- The include directory. -/
  | scanning
  /-- A file being read. -/
  | parsing
  /-- A file that could not be read. -/
  | failed
  /-- A finding. -/
  | warning
  /-- Help on the finding above. -/
  | help
  /-- The totals. -/
  | finished
  /-- The output file. -/
  | wrote
  /-- A problem that ends the run. -/
  | error
  deriving DecidableEq, Repr

namespace Status

def verb : Status → String
  | scanning => "Scanning"
  | parsing => "Parsing"
  | failed => "Failed"
  | warning => "warning"
  | help => "help"
  | finished => "Finished"
  | wrote => "Wrote"
  | error => "error"

/-- The terminal code for the verb's colour. -/
def color : Status → String
  | scanning => "\x1b[36m"
  | parsing | finished | wrote => "\x1b[32m"
  | warning | help => "\x1b[33m"
  | failed | error => "\x1b[31m"

end Status

/-- A status line. -/
structure Notice where
  status : Status
  message : String
  /-- Less important text after the message. -/
  aside : Option String := none
  deriving DecidableEq, Repr

/-- A stream that lines are written to. -/
structure Stream where
  written : String := ""
  /-- What becomes of the next lines, the fault if one is not taken. Lines beyond these are
      taken. -/
  answers : List (Option Fault) := []
  deriving DecidableEq, Repr

/-- Writes a line. -/
def Stream.writeLine (s : Stream) (line : String) : Stream × Except Fault Unit :=
  match s.answers with
  | some fault :: rest => ({ s with answers := rest }, .error fault)
  | none :: rest => (⟨s.written ++ line ++ "\n", rest⟩, .ok ())
  | [] => (⟨s.written ++ line ++ "\n", []⟩, .ok ())

/-- How notices are printed. -/
structure Printer where
  color : Bool
  isSilent : Bool := false
  deriving DecidableEq, Repr

namespace Printer

/-- Prints nothing. -/
def silent : Printer :=
  ⟨false, true⟩

/-- Less important text. -/
def dim (p : Printer) (text : String) : String :=
  if p.color then "\x1b[2m" ++ text ++ "\x1b[0m" else text

/-- The verb in its column. -/
def verbColumn (s : Status) : String :=
  String.ofList (List.replicate (12 - s.verb.length) ' ') ++ s.verb

/-- A notice as a line of text, without the line end. -/
def line (p : Printer) (n : Notice) : String :=
  let verb := if p.color then "\x1b[1m" ++ n.status.color ++ verbColumn n.status ++ "\x1b[0m"
    else verbColumn n.status
  let aside := match n.aside with
    | some text => " " ++ p.dim text
    | none => ""
  verb ++ " " ++ n.message ++ aside

/-- Writes a notice to a stream, whatever the stream makes of it. -/
def emit (p : Printer) (s : Stream) (n : Notice) : Stream :=
  if p.isSilent then s else (s.writeLine (p.line n)).1

/-- Writes notices to a stream, one after the other. -/
def emitAll (p : Printer) (s : Stream) (ns : List Notice) : Stream :=
  ns.foldl p.emit s

end Printer

/-- A count with its noun. -/
def plural (n : Nat) (one many : String) : String :=
  toString n ++ " " ++ if n = 1 then one else many

/-- The notices for a finding: the finding with its code, and help if there is any. -/
def Lint.Finding.notices (f : Lint.Finding) : List Notice :=
  ⟨.warning, f.display, some ("[" ++ f.problem.code ++ "]")⟩ ::
    (f.problem.help?.map fun text => (⟨.help, text, none⟩ : Notice)).toList

end PawnApi
