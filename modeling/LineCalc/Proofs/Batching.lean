/-
Batches compose, and nothing cuts one short.

The lines of a text that are evaluated are its `spoken` ones: those that are not blank, without the carriage returns at
their ends. Where a text is cut at a newline its spoken lines are cut as well (`Text.spoken_append`), and a carriage
return in front of a newline does not count (`Text.spoken_returned`). A batch does not look at what was printed before it,
so that what it adds can be told apart (`Batch.andThen`, `Batch.all_eq`). What a batch adds is the answers to its lines
(`Batch.all_start`). Each is told in one of two places (`Batch.told_once`), which takes one premise about what draws the
reports: nothing it draws is empty (`Style.Visible`).

Result:
- `text_composes`: a text is its parts in order, carriage returns do not count, and each spoken line is answered.
-/
import Mathlib.Control.Monad.Basic
import Mathlib.Tactic.SplitIfs
import LineCalc.Batch

namespace LineCalc

/-! ## Spoken lines -/

namespace Text

/-- the lines of a text that are evaluated -/
def spoken (text : String) : List String :=
  ((lines text).map chomp).filter fun line => !isBlankLine line

/-- a list is cut into records at each terminator, but for an empty record in front of it -/
theorem records_append_terminator [DecidableEq α] (terminator : α) (as bs : List α) :
    records terminator (as ++ terminator :: bs) = records terminator as ++ records terminator bs ∨
      records terminator (as ++ terminator :: bs) = records terminator as ++ [] :: records terminator bs := by
  induction as with
  | nil =>
    right
    rw [List.nil_append, records_cons_terminator, records, List.nil_append]
  | cons a as ih =>
    by_cases ha : a = terminator
    · subst ha
      rw [List.cons_append, records_cons_terminator, records_cons_terminator]
      rcases ih with ih | ih
      · exact Or.inl (by rw [ih, List.cons_append])
      · exact Or.inr (by rw [ih, List.cons_append])
    · rw [List.cons_append, records_cons_of_ne ha, records_cons_of_ne ha]
      cases as with
      | nil =>
        left
        rw [List.nil_append, records_cons_terminator, records]
        rfl
      | cons b as =>
        have hne := records_cons_ne_nil terminator b as
        rcases ih with ih | ih
        · exact Or.inl (by rw [ih, prepend_append _ hne])
        · exact Or.inr (by rw [ih, prepend_append _ hne])

/-- **A text is cut into its spoken lines at any newline**, also behind another newline or a carriage return. -/
theorem spoken_append (t₁ t₂ : String) : spoken (t₁ ++ "\n" ++ t₂) = spoken t₁ ++ spoken t₂ := by
  have htext : (t₁ ++ "\n" ++ t₂).toList = t₁.toList ++ '\n' :: t₂.toList := by simp
  have hblank : isBlankLine (chomp (String.ofList [])) = true := by decide
  simp only [spoken, lines, htext]
  rcases records_append_terminator '\n' t₁.toList t₂.toList with h | h
  · simp [h]
  · simp [h, hblank]

/-- `cs'` is `cs` with a carriage return put in front of some of its newlines -/
inductive Returned : (cs cs' : List Char) → Prop
  | nil : Returned [] []
  | keep (c : Char) {cs cs' : List Char} : Returned cs cs' → Returned (c :: cs) (c :: cs')
  | widen {cs cs' : List Char} : Returned cs cs' → Returned ('\n' :: cs) ('\r' :: '\n' :: cs')

theorem Returned.refl (cs : List Char) : Returned cs cs := by
  induction cs with
  | nil => exact .nil
  | cons c cs ih => exact .keep c ih

theorem Returned.append {cs cs' : List Char} (h : Returned cs cs') (head : List Char) :
    Returned (head ++ cs) (head ++ cs') := by
  induction head with
  | nil => exact h
  | cons c head ih => exact .keep c ih

/-- carriage returns in front of newlines are trimmed off again -/
theorem records_returned {cs cs' : List Char} (h : Returned cs cs') :
    (records '\n' cs').map (trimEnd (· = '\r')) = (records '\n' cs).map (trimEnd (· = '\r')) := by
  induction h with
  | nil => rfl
  | @keep c cs cs' _ ih =>
    by_cases hc : c = '\n'
    · subst hc
      rw [records_cons_terminator, records_cons_terminator, List.map_cons, List.map_cons, ih]
    · rw [records_cons_of_ne hc, records_cons_of_ne hc]
      exact map_trimEnd_prepend ih rfl
  | widen _ ih =>
    rw [records_cons_of_ne (by decide), records_cons_terminator, records_cons_terminator, prepend, List.map_cons,
      List.map_cons, ih]
    rfl

theorem map_chomp_lines (text : String) :
    (lines text).map chomp = ((records '\n' text.toList).map (trimEnd (· = '\r'))).map String.ofList := by
  simp [lines, chomp]

theorem spoken_returned {text text' : String} (h : Returned text.toList text'.toList) : spoken text' = spoken text := by
  rw [spoken, spoken, map_chomp_lines, map_chomp_lines, records_returned h]

end Text

/-! ## What a batch adds -/

namespace Batch

variable (style : Style) (source : Option String)

theorem text_eq (b : Batch) (text : String) : b.text style source text = b.all style source (Text.spoken text) := rfl

/-- a batch, and another one that begins in the session it leaves -/
def andThen (b c : Batch) : Batch := ⟨c.session, b.out ++ c.out, b.err ++ c.err, b.ok && c.ok⟩

theorem andThen_assoc (b c d : Batch) : (b.andThen c).andThen d = b.andThen (c.andThen d) := by
  simp [andThen, String.append_assoc, Bool.and_assoc]

theorem andThen_start (b : Batch) : b.andThen (start b.session) = b := by
  simp [andThen, start]

/-- a line adds the same, whatever was printed before it -/
theorem line_eq (b : Batch) (line : String) :
    b.line style source line = b.andThen ((start b.session).line style source line) := by
  simp only [Batch.line, start, andThen]
  split <;> simp

theorem all_cons (b : Batch) (line : String) (lines : List String) :
    b.all style source (line :: lines) = (b.line style source line).all style source lines := rfl

theorem all_append (b : Batch) (lines lines' : List String) :
    b.all style source (lines ++ lines') = (b.all style source lines).all style source lines' :=
  List.foldl_append

/-- lines add the same, whatever was printed before them -/
theorem all_eq (b : Batch) (lines : List String) :
    b.all style source lines = b.andThen ((start b.session).all style source lines) := by
  induction lines generalizing b with
  | nil => exact b.andThen_start.symm
  | cons line lines ih =>
    rw [all_cons, all_cons, ih, line_eq, andThen_assoc, ih ((start b.session).line style source line)]
    rfl

/-- the lines after the first begin in the session it leaves -/
theorem all_start_cons (s : Session) (line : String) (lines : List String) :
    let first := (start s).line style source line
    (start s).all style source (line :: lines) = first.andThen ((start first.session).all style source lines) :=
  all_eq style source ((start s).line style source line) lines

end Batch

/-! ## Answers -/

/-- the premise on what draws the reports: something is shown of each -/
def Style.Visible : Style → Prop
  | .plain => True
  | .coloured draw => ∀ report : Report, draw report ≠ ""

/-- some lines with what they come to, each evaluated after those before it -/
def Session.answers : Session → List String → List (String × Except Diagnostic Outcome)
  | _, [] => []
  | s, line :: lines => (line, (s.evaluate line).1) :: answers (s.evaluate line).2 lines

theorem Session.map_fst_answers (s : Session) (lines : List String) : (s.answers lines).map Prod.fst = lines := by
  induction lines generalizing s with
  | nil => rfl
  | cons line lines ih => rw [answers, List.map_cons, ih]

/-- the session after some lines -/
def Session.afterAll (s : Session) (lines : List String) : Session :=
  lines.foldl (fun s line => (s.evaluate line).2) s

namespace Batch

variable (style : Style) (source : Option String)

/-- what is printed about an answer -/
def printed : String × Except Diagnostic Outcome → String
  | (_, .ok o) => o.told
  | (_, .error _) => ""

/-- what is complained about an answer -/
def complained : String × Except Diagnostic Outcome → String
  | (_, .ok _) => ""
  | (line, .error d) => d.told style source line

def succeeded : String × Except Diagnostic Outcome → Bool
  | (_, .ok _) => true
  | (_, .error _) => false

theorem line_start (s : Session) (line : String) :
    let answer := (line, (s.evaluate line).1)
    (start s).line style source line =
      ⟨(s.evaluate line).2, printed answer, complained style source answer, succeeded answer⟩ := by
  intro answer
  simp only [Batch.line, start]
  split
  next o session h => simp [answer, h, printed, complained, succeeded]
  next d session h => simp [answer, h, printed, complained, succeeded]

/-- lines are answered one after another, and what a batch has collected is what is told about the answers -/
theorem all_start (s : Session) (lines : List String) :
    let answers := s.answers lines
    (start s).all style source lines =
      ⟨s.afterAll lines, String.join (answers.map printed), String.join (answers.map (complained style source)),
        answers.all succeeded⟩ := by
  intro answers
  induction lines generalizing s with
  | nil => rfl
  | cons line lines ih =>
    rw [all_start_cons, line_start, ih]
    simp only [andThen, answers, Session.answers, List.map_cons, String.join_cons, List.all_cons]
    rfl

theorem told_outcome_ne (o : Outcome) : o.told ≠ "" := by
  cases o <;> simp [Outcome.told]

theorem join_eq_empty_iff {texts : List String} : String.join texts = "" ↔ ∀ t ∈ texts, t = "" := by
  induction texts with
  | nil => simp
  | cons t texts ih => simp [String.append_eq_empty_iff, ih]

section
variable {style : Style} (hvisible : style.Visible)
include hvisible

theorem told_diagnostic_ne (d : Diagnostic) (line : String) : d.told style source line ≠ "" := by
  cases style with
  | plain => simp [Diagnostic.told]
  | coloured draw => exact hvisible (d.report line source)

/-- an answer is told in one place, and in the second only if it is a diagnostic -/
theorem told_once (answer : String × Except Diagnostic Outcome) :
    if succeeded answer then printed answer ≠ "" ∧ complained style source answer = ""
    else printed answer = "" ∧ complained style source answer ≠ "" := by
  obtain ⟨line, o | d⟩ := answer
  · exact ⟨rfl, told_diagnostic_ne source hvisible _ line⟩
  · exact ⟨told_outcome_ne _, rfl⟩

theorem complained_eq_empty_iff (answer : String × Except Diagnostic Outcome) :
    complained style source answer = "" ↔ succeeded answer = true := by
  have htold := told_once source hvisible answer
  split_ifs at htold with h <;> simp [h, htold.2]

/-- all went well if there is nothing to complain about -/
theorem all_succeeded_iff (answers : List (String × Except Diagnostic Outcome)) :
    answers.all succeeded = true ↔ String.join (answers.map (complained style source)) = "" := by
  simp only [List.all_eq_true, join_eq_empty_iff, List.forall_mem_map, complained_eq_empty_iff source hvisible]

end

/-- **A batch is the batches of its parts, and no line of it is left out.** Let a text be evaluated in any session.
- If it is cut at a newline, it does what its parts do one after another: the second begins in the session the first
  leaves, what they print follows on, and both have to go well.
- Carriage returns put in front of newlines change nothing.
- Its spoken lines, in order, are each evaluated after all lines before it, whatever came of them: their values and help
  pages make up `out`, their diagnostics `err`.
- If something is shown of every report, each of these lines adds to one of `out` and `err` and nothing to the other, so
  that the batch went well if and only if `err` is empty. -/
theorem text_composes (style : Style) (source : Option String) (s : Session) :
    (∀ t₁ t₂ : String,
      let first := (start s).text style source t₁
      let second := (start first.session).text style source t₂
      (start s).text style source (t₁ ++ "\n" ++ t₂) = first.andThen second) ∧
    (∀ text text' : String, Text.Returned text.toList text'.toList →
      (start s).text style source text' = (start s).text style source text) ∧
    ∀ text : String,
      let b := (start s).text style source text
      let answers := s.answers (Text.spoken text)
      answers.map Prod.fst = Text.spoken text ∧ b.session = s.afterAll (Text.spoken text) ∧
        b.out = String.join (answers.map printed) ∧ b.err = String.join (answers.map (complained style source)) ∧
        (style.Visible →
          (∀ answer ∈ answers, (printed answer ≠ "" ∧ complained style source answer = "") ∨
            (printed answer = "" ∧ complained style source answer ≠ "")) ∧
          (b.ok = true ↔ b.err = "")) := by
  refine ⟨fun t₁ t₂ => ?_, fun text text' h => ?_, fun text => ?_⟩
  · intro first second
    rw [text_eq, Text.spoken_append, all_append, all_eq]
    rfl
  · rw [text_eq, text_eq, Text.spoken_returned h]
  · intro b answers
    have hb : b = ⟨s.afterAll (Text.spoken text), String.join (answers.map printed),
        String.join (answers.map (complained style source)), answers.all succeeded⟩ :=
      all_start style source s (Text.spoken text)
    refine ⟨s.map_fst_answers _, by rw [hb], by rw [hb], by rw [hb], fun hvisible => ⟨fun answer _ => ?_, ?_⟩⟩
    · have htold := told_once source hvisible answer
      split_ifs at htold
      · exact Or.inl htold
      · exact Or.inr htold
    · rw [hb]
      exact all_succeeded_iff source hvisible answers

/-- what a terminal is sent about `1 +` -/
def drawnForOnePlus : String :=
  "\x1b[31mError:\x1b[0m \x1b[33mParse Error\x1b[0m: Expected Number but encountered EOF\n" ++
  "   \x1b[38;5;246m╭\x1b[0m\x1b[38;5;246m─\x1b[0m\x1b[38;5;246m[\x1b[0m<expr>:1:4\x1b[38;5;246m]\x1b[0m\n" ++
  "   \x1b[38;5;246m│\x1b[0m\n" ++
  " \x1b[38;5;246m1 │\x1b[0m \x1b[38;5;249m1\x1b[0m\x1b[38;5;249m \x1b[0m\x1b[38;5;249m+\x1b[0m\n" ++
  " \x1b[38;5;240m  │\x1b[0m    \x1b[33m┬\x1b[0m  \n" ++
  " \x1b[38;5;240m  │\x1b[0m    \x1b[33m╰\x1b[0m\x1b[33m─\x1b[0m\x1b[33m─\x1b[0m Expected Number but encountered EOF\n" ++
  "\x1b[38;5;246m───╯\x1b[0m\n"

/-- a line that fails, cut off behind its carriage return: the line after it still sees what the first one assigned, and
the only report is the one on the line that failed -/
theorem text_composes_over_failure :
    let style := Style.coloured fun _ => drawnForOnePlus
    let s := Session.start Session.defaultLimit
    let text := "x = 2\n1 +\r\nx * 3"
    let whole := (start s).text style none text
    let first := (start s).text style none "x = 2\n1 +\r"
    let answer : String × Except Diagnostic Outcome := ("x * 3", .ok (.value 6))
    style.Visible ∧ whole = first.andThen ((start first.session).text style none "x * 3") ∧
      Text.Returned text.toList "x = 2\r\n1 +\r\nx * 3".toList ∧
      (start s).text style none "x = 2\r\n1 +\r\nx * 3" = whole ∧
      answer ∈ s.answers (Text.spoken text) ∧
      ((printed answer ≠ "" ∧ complained style none answer = "") ∨
        (printed answer = "" ∧ complained style none answer ≠ "")) ∧
      (whole.ok = true ↔ whole.err = "") ∧ whole.out = "2\n6\n" ∧ whole.err = drawnForOnePlus := by
  intro style s text whole first answer
  obtain ⟨hcut, hreturned, htold⟩ := text_composes style none s
  have hvisible : style.Visible := by
    intro report
    change drawnForOnePlus ≠ ""
    decide
  have hreturn : Text.Returned text.toList "x = 2\r\n1 +\r\nx * 3".toList := by
    have hlists : text.toList = "x = 2".toList ++ '\n' :: "1 +\r\nx * 3".toList ∧
        "x = 2\r\n1 +\r\nx * 3".toList = "x = 2".toList ++ '\r' :: '\n' :: "1 +\r\nx * 3".toList := by decide
    rw [hlists.1, hlists.2]
    exact (Text.Returned.widen (.refl _)).append "x = 2".toList
  have hmem : answer ∈ s.answers (Text.spoken text) := by decide +kernel
  obtain ⟨-, -, -, -, honce⟩ := htold text
  obtain ⟨hplace, hok⟩ := honce hvisible
  exact ⟨hvisible, hcut "x = 2\n1 +\r" "x * 3", hreturn, hreturned _ _ hreturn, hmem, hplace answer hmem, hok,
    by decide +kernel, by decide +kernel⟩

end Batch

end LineCalc
