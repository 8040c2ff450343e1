/-
Number literals in base ten, sixteen (`0x`, `0X`) and two (`0b`), on 64-bit words.

The base fixes the characters a literal runs over and, apart from that, the digits that count: a binary literal runs
over every decimal digit, and its value stops before the first digit above 1. The value wraps around. At most
`maxDigits` digits belong to one literal; the mark of the base is not among them.
-/
import LineCalc.Text.Span

namespace LineCalc

/-- the base a literal is written in -/
inductive Radix where
  | binary
  | decimal
  | hexadecimal
deriving DecidableEq, Repr

namespace Radix

def base : Radix → Nat
  | binary => 2
  | decimal => 10
  | hexadecimal => 16

/-- the base that a letter after a leading zero announces -/
def ofMark? : Char → Option Radix
  | 'b' => some binary
  | 'x' => some hexadecimal
  | 'X' => some hexadecimal
  | _ => none

/-- the number below 16 that a character stands for -/
def digitOfChar? (c : Char) : Option Nat :=
  if '0' ≤ c ∧ c ≤ '9' then some (c.toNat - '0'.toNat)
  else if 'a' ≤ c ∧ c ≤ 'f' then some (c.toNat - 'a'.toNat + 10)
  else if 'A' ≤ c ∧ c ≤ 'F' then some (c.toNat - 'A'.toNat + 10)
  else none

/-- the digit a character stands for in this base -/
def digit? (r : Radix) (c : Char) : Option Nat :=
  (digitOfChar? c).filter (· < r.base)

/-- whether a literal of this base runs over a character -/
def runsOver : Radix → Char → Bool
  | hexadecimal, c => (digitOfChar? c).isSome
  | _, c => c.isDigit

/-- the digits at the head of a text, up to the first character that is none in this base -/
def leadingDigits (r : Radix) : List Char → List Nat
  | [] => []
  | c :: cs =>
    match r.digit? c with
    | some d => d :: r.leadingDigits cs
    | none => []

/-- the word a row of digits stands for -/
def word (r : Radix) (digits : List Nat) : Int64 :=
  digits.foldl (fun acc d => acc * Int64.ofNat r.base + Int64.ofNat d) 0

end Radix

/-- the most digits that one literal takes -/
def Literal.maxDigits : Nat := 1023

/-- a literal as written: its base, the characters before its digits, and the digits it runs over -/
structure Literal where
  radix : Radix
  mark : List Char
  digits : List Char
deriving DecidableEq, Repr

namespace Literal

def text (l : Literal) : List Char := l.mark ++ l.digits

def value (l : Literal) : Int64 := l.radix.word (l.radix.leadingDigits l.digits)

/-- the literal that follows a mark, and the text after it -/
def marked (r : Radix) (mark : List Char) (cs : List Char) : Literal × List Char :=
  (⟨r, mark, (Text.splitSpan r.runsOver maxDigits cs).1⟩, (Text.splitSpan r.runsOver maxDigits cs).2)

/-- the base that the head of a text announces, with the mark that announces it and the text after the mark -/
def announced? : List Char → Option (Radix × List Char × List Char)
  | '0' :: m :: cs => (Radix.ofMark? m).map fun r => (r, ['0', m], cs)
  | _ => none

/-- the literal at the head of `cs`, which begins with a decimal digit, and the text after it -/
def read (cs : List Char) : Literal × List Char :=
  match announced? cs with
  | some (r, mark, rest) => marked r mark rest
  | none => marked .decimal [] cs

theorem marked_append (r : Radix) (mark cs : List Char) :
    (marked r mark cs).1.text ++ (marked r mark cs).2 = mark ++ cs := by
  simp [marked, text, Text.splitSpan_append]

theorem announced?_append {cs mark rest : List Char} {r : Radix} (h : announced? cs = some (r, mark, rest)) :
    mark ++ rest = cs ∧ mark ≠ [] := by
  unfold announced? at h
  split at h
  · obtain ⟨_, _, h⟩ := Option.map_eq_some_iff.1 h
    simp only [Prod.mk.injEq] at h
    obtain ⟨_, rfl, rfl⟩ := h
    simp
  · simp at h

/-- a literal and what follows it make up the text it was read from -/
theorem read_append (cs : List Char) : (read cs).1.text ++ (read cs).2 = cs := by
  unfold read
  split
  next h => rw [marked_append, (announced?_append h).1]
  next => simp [marked_append]

/-- a literal that begins with a digit is not empty -/
theorem text_read_ne_nil {c : Char} (h : c.isDigit) (cs : List Char) : (read (c :: cs)).1.text ≠ [] := by
  unfold read
  split
  next ha => simp [marked, text, (announced?_append ha).2]
  next => simp [marked, text, Radix.runsOver, maxDigits, Text.splitSpan, h]

end Literal

end LineCalc
