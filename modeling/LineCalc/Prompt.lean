/-
The prompt: a dialogue of lines, each asked for with a sign and answered before the next.

It ends with the input or with a line that is exactly `exit` or `quit`; a newline is printed only where the input ends.
A line that is no text stops the dialogue with a complaint. Nothing said at the prompt changes whether the batch before
it went well.
-/
import LineCalc.Batch

namespace LineCalc

/-- what arrives at the prompt -/
inductive Input where
  | line (text : String)
  | garbled
  | ended
deriving DecidableEq, Repr

/-- a line as it arrives, from its bytes -/
def Input.ofBytes (bytes : List UInt8) : Input :=
  match String.fromUTF8? bytes.toByteArray with
  | some text => .line text
  | none => .garbled

/-- the lines of a stream of bytes -/
def Input.ofStream (bytes : List UInt8) : List Input :=
  (Text.records 10 bytes).map Input.ofBytes

namespace Prompt

def banner : String :=
  "bashmath v0.1.0\nType 'help' for the grammar, 'exit' or Ctrl+D to quit\n\n"

/-- what asks for a line -/
def sign : String := "> "

/-- the words that end a dialogue -/
def farewells : List String := ["exit", "quit"]

/-- answers what arrived; whether the dialogue goes on -/
def answer (style : Style) (b : Batch) : Input → Batch × Bool
  | .ended => (b.print "\n", false)
  | .garbled => (b.complain "Error reading input: stream did not contain valid UTF-8\n", false)
  | .line text =>
    let line := Text.chomp text
    if Text.isBlankLine line then (b, true)
    else if line ∈ farewells then (b, false)
    else ({ b.line style none line with ok := b.ok }, true)

/-- asks for lines and answers them until the dialogue ends -/
def converse (style : Style) (b : Batch) : List Input → Batch
  | [] => (answer style (b.print sign) .ended).1
  | input :: rest =>
    let r := answer style (b.print sign) input
    if r.2 then converse style r.1 rest else r.1

/-- a whole dialogue, after what `b` has printed -/
def run (style : Style) (b : Batch) (inputs : List Input) : Batch :=
  converse style (b.print banner) inputs

/-- a whole dialogue on a text -/
def runText (style : Style) (b : Batch) (text : String) : Batch :=
  run style b ((Text.lines text).map .line)

end Prompt

end LineCalc
