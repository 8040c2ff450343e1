/-
Diagnostics: what can be wrong with a line, where, and how it is told.

A `Fault` is a cause and `Fault.message` its wording; `Fault.stage` says whether the line was refused while it was
scanned, while it was parsed, or while its values were computed. A `Diagnostic` puts a fault at a column of its line,
with an optional note. `Diagnostic.render` echoes the line and points at the column.
-/
import LineCalc.Text.Escape

namespace LineCalc

/-- one half of a pair of parentheses -/
inductive Paren where
  | opening
  | closing
deriving DecidableEq, Repr

def Paren.description : Paren → String
  | .opening => "LParen '(' to open"
  | .closing => "RParen ')' to close"

/-- when a fault is found -/
inductive Stage where
  | scanning
  | parsing
  | computing
deriving DecidableEq, Repr

/-- why a line has no value -/
inductive Fault where
  | illegalChar (c : Char)
  | inputTooLong
  | unexpectedEnd
  | mismatch (expected found : String)
  | unmatched (missing : Paren)
  | divisionByZero
  | modulusByZero
  | unassigned (name : String)
  | trailingTokens
  | nestingTooDeep
  | rangeTooLarge
deriving DecidableEq, Repr

namespace Fault

def message : Fault → String
  | illegalChar _ => "Syntax error"
  | inputTooLong => "Input too long"
  | unexpectedEnd => "Unexpected end of input"
  | mismatch expected found => "Expected " ++ expected ++ " but encountered " ++ found
  | unmatched missing => "Missing " ++ missing.description
  | divisionByZero => "Division by 0 error"
  | modulusByZero => "Modulus by 0 error"
  | unassigned name => "Unassigned Identifier '" ++ name ++ "'"
  | trailingTokens => "First in unknown sequence"
  | nestingTooDeep => "Parentheses nested too deeply"
  | rangeTooLarge => "Summation range too large"

def stage : Fault → Stage
  | illegalChar _ | inputTooLong => .scanning
  | unexpectedEnd | mismatch _ _ | unmatched _ | trailingTokens | nestingTooDeep => .parsing
  | divisionByZero | modulusByZero | unassigned _ | rangeTooLarge => .computing

end Fault

/-- a fault at a column of the line, counted from 1, with a note for the reader -/
structure Diagnostic where
  fault : Fault
  column : Nat
  help : Option String := none
deriving DecidableEq, Repr

namespace Diagnostic

/-! ## Diagnostics with their notes -/

def illegalChar (c : Char) (column : Nat) : Diagnostic :=
  ⟨.illegalChar c, column,
    some ("'" ++ Text.escape c ++ "' is not part of any operator, number or identifier.")⟩

def inputTooLong (limit : Nat) : Diagnostic :=
  ⟨.inputTooLong, limit, some ("Expressions must be shorter than " ++ toString limit ++ " characters.")⟩

def unexpectedEnd (column : Nat) : Diagnostic :=
  ⟨.unexpectedEnd, column, none⟩

def mismatch (expected found : String) (column : Nat) : Diagnostic :=
  ⟨.mismatch expected found, column, none⟩

/-- `column` is that of the half that is there -/
def unmatched (missing : Paren) (column : Nat) : Diagnostic :=
  ⟨.unmatched missing, column,
    some (match missing with
      | .opening => "This ')' closes a group that was never opened."
      | .closing => "This '(' is never closed. Add a matching ')'.")⟩

def divisionByZero (column : Nat) : Diagnostic :=
  ⟨.divisionByZero, column, none⟩

/-- division by zero that comes from a negative power -/
def powerOfZero (column : Nat) : Diagnostic :=
  ⟨.divisionByZero, column, some "0 raised to a negative power divides by zero."⟩

def modulusByZero (column : Nat) : Diagnostic :=
  ⟨.modulusByZero, column, none⟩

def unassigned (name : String) (column : Nat) : Diagnostic :=
  ⟨.unassigned name, column, some ("Assign a value first, for example: " ++ name ++ " = 1")⟩

def trailingTokens (column : Nat) : Diagnostic :=
  ⟨.trailingTokens, column,
    some "Everything from here on could not be combined with the expression before it."⟩

/-- something stands after a lone `help` -/
def trailingHelp (column : Nat) : Diagnostic :=
  ⟨.trailingTokens, column, none⟩

def nestingTooDeep (limit column : Nat) : Diagnostic :=
  ⟨.nestingTooDeep, column,
    some ("At most " ++ toString limit ++ " parentheses may be open at once.")⟩

def rangeTooLarge (limit : Nat) (column : Nat) : Diagnostic :=
  ⟨.rangeTooLarge, column,
    some ("A summation may run at most " ++ toString limit ++ " iterations.")⟩

/-! ## Plain text -/

/-- spaces that lead up to a column -/
def indent (column : Nat) : String :=
  String.ofList (List.replicate (column - 1) ' ')

/-- the line, and below it a caret at the column with the message -/
def render (d : Diagnostic) (line : String) : String :=
  line ++ "\n" ++ indent d.column ++ "^ Error: " ++ d.fault.message

/-- the diagnostic in one line, without the text it is about -/
def summary (d : Diagnostic) : String :=
  "column " ++ toString d.column ++ ": " ++ d.fault.message

end Diagnostic

end LineCalc
