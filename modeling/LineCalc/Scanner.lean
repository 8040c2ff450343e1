/-
Scanners: the tokens of a line one after another, each read when it is asked for.

A scanner knows what is left of its line and in which column that stands, and whether it has given the `eof` already;
after that it gives nothing. What it gives, call by call, are the tokens of the line (`Scanner.call_start`).
-/
import LineCalc.Lexeme

namespace LineCalc

/-- a line of which some tokens have been read -/
structure Scanner where
  rest : List Char
  column : Nat
  finished : Bool
deriving DecidableEq, Repr

namespace Scanner

/-- before the first token -/
def start (line : String) : Scanner := ⟨line.toList, 1, false⟩

/-- the token at the head of a text behind any spaces, and the scanner after it -/
def take (column : Nat) : List Char → Token × Scanner
  | [] => (⟨.eof, column⟩, ⟨[], column, true⟩)
  | c :: cs =>
    if c = ' ' then take (column + 1) cs
    else
      let r := Lexeme.read c cs
      (⟨r.1.terminal, column⟩, ⟨r.2, column + r.1.text.length, false⟩)

/-- the next token, of which there is none after `eof` -/
def next (s : Scanner) : Option Token × Scanner :=
  if s.finished then (none, s)
  else
    let r := take s.column s.rest
    (some r.1, r.2)

/-- what is given when a scanner is asked again after `n` times -/
def call : Nat → Scanner → Option Token
  | 0, s => s.next.1
  | n + 1, s => call n s.next.2

/-- the tokens that a scanner has still to give -/
def ahead (s : Scanner) : List Token :=
  if s.finished then [] else tokensFrom s.column s.rest

theorem tokensFrom_eq_take (column : Nat) (cs : List Char) :
    tokensFrom column cs = (take column cs).1 :: (take column cs).2.ahead := by
  induction cs generalizing column with
  | nil => simp [take, ahead, tokensFrom]
  | cons c cs ih =>
    by_cases hc : c = ' '
    · rw [tokensFrom, take, if_pos hc, if_pos hc, ih]
    · rw [tokensFrom, take, if_neg hc, if_neg hc]
      rfl

/-- a call gives the first of the tokens ahead and leaves the others -/
theorem next_eq (s : Scanner) : s.next.1 = s.ahead.head? ∧ s.next.2.ahead = s.ahead.tail := by
  by_cases hfinished : s.finished
  · simp [next, ahead, hfinished]
  · simp [next, ahead, hfinished, tokensFrom_eq_take s.column s.rest]

theorem call_eq (n : Nat) (s : Scanner) : s.call n = s.ahead[n]? := by
  induction n generalizing s with
  | zero => rw [call, s.next_eq.1, List.head?_eq_getElem?]
  | succ n ih => rw [call, ih, s.next_eq.2, List.getElem?_tail]

/-- a scanner gives the tokens of its line, and nothing after them -/
theorem call_start (line : String) (n : Nat) : (start line).call n = (tokensOf line)[n]? :=
  call_eq n (start line)

end Scanner

end LineCalc
