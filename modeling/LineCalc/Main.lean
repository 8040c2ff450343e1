/-
The command on a real machine: reads files and the terminal, and prints what the library answers. What reads the
arguments and what draws the reports is handed to it.
-/
import LineCalc.CommandLine

namespace LineCalc

/-- the bytes up to the next newline, which is taken too; `none` at the end of the stream -/
partial def readBytes (stream : IO.FS.Stream) (line : List UInt8) : IO (Option (List UInt8)) := do
  let bytes ← stream.read 1
  match bytes.data.toList with
  | [] => return if line.isEmpty then none else some line.reverse
  | 10 :: _ => return some line.reverse
  | b :: _ => readBytes stream (b :: line)

def readInput (stream : IO.FS.Stream) : IO Input := do
  match ← readBytes stream [] with
  | none => return .ended
  | some bytes => return Input.ofBytes bytes

/-- what a file name leads to on disk -/
def readContent (name : String) : IO Content := do
  try
    return Content.ofBytes (← IO.FS.readBinFile name)
  catch
    | .noFileOrDirectory .. => return .missing
    | .inappropriateType .. => return .unreadable "Is a directory (os error 21)"
    | e => return .unreadable (toString e)

/-- prints what a batch has collected, and leaves the batch with nothing to print -/
def deliver (b : Batch) : IO Batch := do
  IO.print b.out
  IO.eprint b.err
  (← IO.getStdout).flush
  return { b with out := "", err := "" }

/-- asks for lines and answers them until the dialogue ends -/
partial def dialogue (style : Style) (b : Batch) : IO Unit := do
  let b ← deliver (b.print Prompt.sign)
  let (b, goesOn) := Prompt.answer style b (← readInput (← IO.getStdin))
  let b ← deliver b
  if goesOn then dialogue style b

/-- the command on a real machine; the exit status it ends with -/
def CommandLine.perform (draw : Report → String) (inv : Invocation) : IO UInt32 := do
  let content ← match inv.expressions, inv.file with
    | [], some name => readContent name
    | _, _ => pure .missing
  let (batch, goesOn) := inv.batch draw fun _ => content
  let batch ← deliver batch
  if goesOn && inv.wantsDialogue then
    dialogue (inv.style draw) (batch.print Prompt.banner)
  return batch.status.toUInt32

end LineCalc
