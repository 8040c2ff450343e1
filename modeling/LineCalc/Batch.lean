/-
Batches: lines evaluated in one session, with everything they print.

Values and the help page go to `out`, diagnostics to `err`; `ok` says whether every line so far had a value or was
answered with the help page. A batch is never cut short: a line that fails only clears `ok`. In a text, lines of blanks
alone are passed over.
-/
import LineCalc.Session
import LineCalc.Report
import LineCalc.Manual
import LineCalc.Text.Lines

namespace LineCalc

/-- how a diagnostic is told: as plain text, or as a report that `draw` turns into what a terminal is sent -/
inductive Style where
  | plain
  | coloured (draw : Report → String)

/-- what is written about a diagnostic for `line`, which was read from `source` -/
def Diagnostic.told (d : Diagnostic) (style : Style) (source : Option String) (line : String) : String :=
  match style with
  | .plain => d.render line ++ "\n"
  | .coloured draw => draw (d.report line source)

/-- what is written about an outcome -/
def Outcome.told : Outcome → String
  | .value v => toString v.toInt ++ "\n"
  | .help => manual ++ "\n"

/-- the session after some lines, and what they have printed -/
structure Batch where
  session : Session
  out : String
  err : String
  ok : Bool
deriving DecidableEq, Repr

namespace Batch

/-- before the first line -/
def start (session : Session) : Batch := ⟨session, "", "", true⟩

/-- adds to what was printed -/
def print (b : Batch) (text : String) : Batch :=
  { b with out := b.out ++ text }

/-- adds to what was complained about -/
def complain (b : Batch) (text : String) : Batch :=
  { b with err := b.err ++ text }

/-- evaluates one line and tells the outcome -/
def line (style : Style) (source : Option String) (b : Batch) (line : String) : Batch :=
  match b.session.evaluate line with
  | (.ok o, session) => { b with session := session, out := b.out ++ o.told }
  | (.error d, session) =>
    { b with session := session, err := b.err ++ d.told style source line, ok := false }

/-- evaluates some lines in order -/
def all (style : Style) (source : Option String) (b : Batch) (lines : List String) : Batch :=
  lines.foldl (line style source) b

/-- evaluates the lines of a text that are not blank -/
def text (style : Style) (source : Option String) (b : Batch) (text : String) : Batch :=
  b.all style source (((Text.lines text).map Text.chomp).filter fun line => !Text.isBlankLine line)

end Batch

end LineCalc
