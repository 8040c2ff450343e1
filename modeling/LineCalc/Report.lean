/-
Reports: a diagnostic with all that is shown of it in colour.

A report has a headline, the text it is about with a place in it, a message for this place, and maybe a note. How a
terminal shows them is not settled here: whatever draws reports is handed over from outside (`Style.coloured`), and a
`Report` is all that it is told.

The text of a report is the line with a space behind it, so that the end of the line can be pointed at as well, and a
column further on is moved there. So there is always a character to point at (`Diagnostic.place_report_lt`).
-/
import LineCalc.Diagnostic

namespace LineCalc

inductive Colour where
  | red
  | magenta
  | yellow
  | cyan
deriving DecidableEq, Repr

/-- a piece of a text, in a colour or as it is -/
structure Piece where
  text : String
  colour : Option Colour := none
deriving DecidableEq, Repr

/-- what a report calls a stage -/
def Stage.title : Stage → String
  | .scanning => "Lexical Error"
  | .parsing => "Parse Error"
  | .computing => "Runtime Error"

/-- the colour of a report on a stage -/
def Stage.colour : Stage → Colour
  | .scanning => .red
  | .parsing => .yellow
  | .computing => .magenta

/-- what is shown of a diagnostic -/
structure Report where
  headline : List Piece
  /-- what the text was read from -/
  source : String
  text : String
  /-- the character that is pointed at, counted from 0 -/
  place : Nat
  /-- the colour of this character -/
  colour : Colour
  /-- what is said about it -/
  message : String
  note : Option (List Piece)
deriving DecidableEq, Repr

namespace Report

/-- the name of a source that has none -/
def anonymous : String := "<expr>"

/-- where a report points, counted from 0, on a line of `length` characters -/
def start (column length : Nat) : Nat :=
  min (column - 1) length

end Report

namespace Diagnostic

/-- the report on a diagnostic for `line`, which was read from `source` -/
def report (d : Diagnostic) (line : String) (source : Option String) : Report where
  headline := [⟨d.fault.stage.title, some d.fault.stage.colour⟩, ⟨": " ++ d.fault.message, none⟩]
  source := source.getD Report.anonymous
  text := line ++ " "
  place := Report.start d.column line.length
  colour := d.fault.stage.colour
  message := d.fault.message
  note := d.help.map fun help => [⟨"help", some .cyan⟩, ⟨": " ++ help, none⟩]

/-- a report points at a character of its text, whatever the column and also on an empty line -/
theorem place_report_lt (d : Diagnostic) (line : String) (source : Option String) :
    (d.report line source).place < (d.report line source).text.length := by
  have htext : (d.report line source).text.length = line.length + 1 := String.length_append ..
  have hplace : (d.report line source).place ≤ line.length := Nat.min_le_right ..
  omega

end Diagnostic

end LineCalc
