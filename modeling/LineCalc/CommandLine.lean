/-
The command: expressions from its arguments or the lines of a file are evaluated as one batch, and a dialogue follows
where it is asked for or nothing else is.

What the words of the arguments mean is read off them outside, and an `Invocation` is what this reading delivers; `draw`
is what draws reports. The exit status is that of the batch; a dialogue leaves it alone. A file that cannot be read ends
the command, one that does not exist is a batch that went wrong.
-/
import LineCalc.Prompt

namespace LineCalc

/-- what the arguments ask for -/
structure Invocation where
  expressions : List String := []
  file : Option String := none
  interactive : Bool := false
  coloured : Bool := false
  limit : Option Nat := none
deriving DecidableEq, Repr

/-- what a file name leads to -/
inductive Content where
  | missing
  | unreadable (reason : String)
  | text (text : String)
deriving DecidableEq, Repr

/-- the content of a file with these bytes -/
def Content.ofBytes (bytes : ByteArray) : Content :=
  match String.fromUTF8? bytes with
  | some s => .text s
  | none => .unreadable "stream did not contain valid UTF-8"

/-- how a run of the command ends -/
structure Exit where
  status : Nat
  out : String
  err : String
deriving DecidableEq, Repr

namespace Invocation

variable (draw : Report → String) (inv : Invocation)

def style : Style :=
  if inv.coloured then .coloured draw else .plain

/-- before anything is evaluated -/
def blank : Batch :=
  .start (.start (inv.limit.getD Session.defaultLimit))

/-- evaluates a file; whether the command goes on after it -/
def runFile (name : String) : Content → Batch × Bool
  | .missing => ({ inv.blank.complain ("Error: File '" ++ name ++ "' not found\n") with ok := false }, true)
  | .unreadable reason => ({ inv.blank.complain ("Error: " ++ reason ++ "\n") with ok := false }, false)
  | .text text => (inv.blank.text (inv.style draw) (some name) text, true)

/-- evaluates what the arguments name; whether the command goes on after it -/
def batch (content : String → Content) : Batch × Bool :=
  match inv.expressions, inv.file with
  | [], none => (inv.blank, true)
  | [], some name => inv.runFile draw name (content name)
  | lines, _ => (inv.blank.all (inv.style draw) none lines, true)

/-- whether a dialogue is asked for -/
def wantsDialogue : Bool :=
  inv.interactive || (inv.expressions.isEmpty && inv.file.isNone)

end Invocation

/-- the exit status of a command that has evaluated a batch -/
def Batch.status (b : Batch) : Nat :=
  if b.ok then 0 else 1

namespace CommandLine

/-- a whole run of the command, where `content` says what file names lead to and `inputs` arrives at the prompt -/
def run (draw : Report → String) (inv : Invocation) (content : String → Content) (inputs : List Input) : Exit :=
  let (batch, goesOn) := inv.batch draw content
  let final := if goesOn && inv.wantsDialogue then Prompt.run (inv.style draw) batch inputs else batch
  ⟨final.status, final.out, final.err⟩

end CommandLine

end LineCalc
