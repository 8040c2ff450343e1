/-
Expressions in the arguments and the lines of a file are one program.

A text of lines that are spoken as they stand is spoken as those lines (`Text.spoken_intercalate`). A command that names
something to evaluate ends with its batch (`run_eq`), and the batches of two commands, one with some expressions and one
with a file of them, evaluate the same lines (`Invocation.batch_expressions`, `Invocation.batch_file`); told plainly, a
diagnostic does not say where its line came from. The commands are told as what reading their arguments delivers.

Result:
- `run_expressions_eq_run_file`: both commands end alike, with what their lines come to one after another.
-/
import LineCalc.CommandLine
import LineCalc.Proofs.Batching

namespace LineCalc

/-! ## Lines that are spoken as they stand -/

namespace Text

/-- a line that can be written into a text and is evaluated as it stands -/
structure IsLine (line : String) : Prop where
  notBlank : isBlankLine line = false
  newline : '\n' ∉ line.toList
  carriageReturn : line.toList.getLast? ≠ some '\r'

variable {line : String} {lines : List String}

theorem trimEnd_eq_self {p : Char → Bool} {cs : List Char} (h : ∀ c, cs.getLast? = some c → p c = false) :
    trimEnd p cs = cs := by
  rcases List.eq_nil_or_concat cs with rfl | ⟨init, c, rfl⟩
  · rfl
  · have hc : p c = false := h c (by simp)
    simp [trimEnd, hc]

theorem IsLine.chomp_eq (h : IsLine line) : chomp line = line := by
  have htrim : trimEnd (· = '\r') line.toList = line.toList :=
    trimEnd_eq_self fun c hc => decide_eq_false fun heq => h.carriageReturn (heq ▸ hc)
  rw [chomp, htrim, String.ofList_toList]

theorem IsLine.lines_eq (h : IsLine line) : Text.lines line = [line] := by
  have hne : line.toList ≠ [] := by
    intro hnil
    have hblank := h.notBlank
    rw [isBlankLine, hnil] at hblank
    cases hblank
  have hrecords := records_append h.newline hne []
  rw [List.append_nil, records, prepend] at hrecords
  rw [Text.lines, hrecords, List.map_singleton, String.ofList_toList]

theorem IsLine.spoken_eq (h : IsLine line) : spoken line = [line] := by
  rw [spoken, h.lines_eq, List.map_singleton, h.chomp_eq, List.filter_cons_of_pos (by rw [h.notBlank]; rfl)]
  rfl

/-- **Lines joined by newlines are spoken as they were**, in the same order. -/
theorem spoken_intercalate (h : ∀ line ∈ lines, IsLine line) : spoken ("\n".intercalate lines) = lines := by
  induction lines with
  | nil => simp [spoken, Text.lines, records]
  | cons line lines ih =>
    have hline := (h line List.mem_cons_self).spoken_eq
    have hlines := ih fun other hother => h other (List.mem_cons_of_mem line hother)
    by_cases hnil : lines = []
    · rw [hnil, String.intercalate_singleton, hline]
    · rw [String.intercalate_cons_of_ne_nil hnil, spoken_append, hline, hlines]
      rfl

end Text

/-! ## Commands without a dialogue -/

namespace Batch

/-- told plainly, a line does not say where it came from -/
theorem all_plain (source source' : Option String) (b : Batch) (lines : List String) :
    b.all .plain source lines = b.all .plain source' lines := rfl

/-- how a command ends that evaluates a batch and nothing else -/
def exit (b : Batch) : Exit := ⟨b.status, b.out, b.err⟩

/-- the exit status tells whether all lines have an outcome -/
theorem status_cases {b : Batch} {answers : List (String × Except Diagnostic Outcome)}
    (h : b.ok = answers.all succeeded) :
    (b.status = 0 ∧ ∀ answer ∈ answers, ∃ o, answer.2 = .ok o) ∨
      (b.status = 1 ∧ ∃ answer ∈ answers, ∃ d, answer.2 = .error d) := by
  rw [status, h]
  cases hall : answers.all succeeded with
  | true =>
    left
    refine ⟨rfl, fun answer hanswer => ?_⟩
    have hsucceeded := List.all_eq_true.1 hall answer hanswer
    obtain ⟨line, o | d⟩ := answer
    · cases hsucceeded
    · exact ⟨_, rfl⟩
  | false =>
    right
    obtain ⟨⟨line, o | d⟩, hanswer, hfailed⟩ := List.all_eq_false.1 hall
    · exact ⟨rfl, _, hanswer, _, rfl⟩
    · exact absurd rfl hfailed

end Batch

namespace Invocation

variable (draw : Report → String) {inv : Invocation} {content : String → Content}

theorem batch_expressions (h : inv.expressions ≠ []) :
    inv.batch draw content = (inv.blank.all (inv.style draw) none inv.expressions, true) := by
  obtain ⟨line, lines, hlines⟩ := List.exists_cons_of_ne_nil h
  rw [batch, hlines]

theorem batch_file {name text : String} (h : inv.expressions = []) (hfile : inv.file = some name)
    (hcontent : content name = .text text) :
    inv.batch draw content = (inv.blank.text (inv.style draw) (some name) text, true) := by
  rw [batch, h, hfile]
  dsimp only
  rw [hcontent, runFile]

end Invocation

namespace CommandLine

open Invocation

variable (draw : Report → String)

/-- a command that is not asked for a dialogue ends with its batch -/
theorem run_eq {inv : Invocation} (hdialogue : inv.wantsDialogue = false) (content : String → Content)
    (inputs : List Input) : run draw inv content inputs = (inv.batch draw content).1.exit := by
  rw [run]
  simp only [hdialogue, Bool.and_false, Bool.false_eq_true, if_false]
  rfl

/-- **Expressions in the arguments and a file of the same lines are one program.** Take any limit, any expressions, at
least one, of which each could be a line of a file, and any file that holds them joined by newlines. A command with the
expressions and one with the file, both in plain style and without a dialogue, end alike: same output, same complaints,
same status. The expressions are evaluated in order, each after all before it, whatever came of them; the status is 0 if
every one has an outcome, and 1 if one of them does not. -/
theorem run_expressions_eq_run_file (limit : Option Nat) {lines : List String} (hne : lines ≠ [])
    (hlines : ∀ line ∈ lines, Text.IsLine line) {name : String} {content : String → Content}
    (hcontent : content name = .text ("\n".intercalate lines)) (inputs : List Input) :
    let exit := run draw { expressions := lines, limit := limit } content inputs
    let answers := (Session.start (limit.getD Session.defaultLimit)).answers lines
    run draw { file := some name, limit := limit } content inputs = exit ∧ answers.map Prod.fst = lines ∧
      exit.out = String.join (answers.map Batch.printed) ∧
      exit.err = String.join (answers.map (Batch.complained .plain none)) ∧
      ((exit.status = 0 ∧ ∀ answer ∈ answers, ∃ o, answer.2 = .ok o) ∨
        (exit.status = 1 ∧ ∃ answer ∈ answers, ∃ d, answer.2 = .error d)) := by
  intro exit answers
  let s := Session.start (limit.getD Session.defaultLimit)
  let b := (Batch.start s).all .plain none lines
  have hexpressions : exit = b.exit := by
    have hdialogue : ({ expressions := lines, limit := limit } : Invocation).wantsDialogue = false := by
      simp [wantsDialogue, hne]
    calc exit
      _ = _ := run_eq draw hdialogue content inputs
      _ = b.exit := by rw [batch_expressions draw hne]; rfl
  have hfile : run draw { file := some name, limit := limit } content inputs = b.exit := by
    calc run draw { file := some name, limit := limit } content inputs
      _ = _ := run_eq draw rfl content inputs
      _ = ((Batch.start s).text .plain (some name) ("\n".intercalate lines)).exit := by
        rw [batch_file draw rfl rfl hcontent]; rfl
      _ = b.exit := by rw [Batch.text_eq, Text.spoken_intercalate hlines, Batch.all_plain (some name) none]
  have hbatch : b = ⟨s.afterAll lines, String.join (answers.map Batch.printed),
      String.join (answers.map (Batch.complained .plain none)), answers.all Batch.succeeded⟩ :=
    Batch.all_start .plain none s lines
  have hok : b.ok = answers.all Batch.succeeded := congrArg Batch.ok hbatch
  rw [hfile, hexpressions]
  exact ⟨rfl, s.map_fst_answers lines, congrArg Batch.out hbatch, congrArg Batch.err hbatch, Batch.status_cases hok⟩

/-- a division by zero comes first, and the lines after it are evaluated all the same -/
theorem run_expressions_eq_run_file_after_failure :
    let draw : Report → String := fun _ => ""
    let content : String → Content := fun _ => .text "1/0\nx = 4\n-x * 2"
    let exit := run draw { expressions := ["1/0", "x = 4", "-x * 2"], limit := some 100 } content []
    run draw { file := some "sums", limit := some 100 } content [] = exit ∧ exit.out = "4\n-8\n" ∧
      exit.err = "1/0\n ^ Error: Division by 0 error\n" ∧ exit.status = 1 := by
  intro draw content exit
  have hlines : ∀ line ∈ ["1/0", "x = 4", "-x * 2"], Text.IsLine line := by
    have hall : ∀ line ∈ ["1/0", "x = 4", "-x * 2"],
        Text.isBlankLine line = false ∧ '\n' ∉ line.toList ∧ line.toList.getLast? ≠ some '\r' := by decide
    exact fun line hline => ⟨(hall line hline).1, (hall line hline).2.1, (hall line hline).2.2⟩
  have hcontent : content "sums" = .text ("\n".intercalate ["1/0", "x = 4", "-x * 2"]) := by decide
  obtain ⟨hfile, -, hout, herr, -⟩ := run_expressions_eq_run_file draw (some 100) (by decide) hlines hcontent []
  exact ⟨hfile, hout.trans (by decide +kernel), herr.trans (by decide +kernel), by decide +kernel⟩

end CommandLine

end LineCalc
