/-
The terminals of a line: numbers, names, fifteen operator and bracket spellings and four words, each with the column
of its first character.

`Symbol.all` lists longer spellings first, so the first one that fits the text ahead is the longest
(`Symbol.leading?`). A character that starts no terminal becomes an `illegal` one; the end of a line is `eof`.
-/
namespace LineCalc

/-! ## Spellings -/

/-- an operator, bracket or mark of fixed spelling -/
inductive Symbol where
  | ellipsis
  | starStar
  | lessLess
  | greaterGreater
  | star
  | slash
  | percent
  | plus
  | minus
  | openParen
  | closeParen
  | caret
  | bar
  | ampersand
  | equals
deriving DecidableEq, Repr

namespace Symbol

/-- how a symbol is written -/
def chars : Symbol → List Char
  | ellipsis => ['.', '.', '.']
  | starStar => ['*', '*']
  | lessLess => ['<', '<']
  | greaterGreater => ['>', '>']
  | star => ['*']
  | slash => ['/']
  | percent => ['%']
  | plus => ['+']
  | minus => ['-']
  | openParen => ['(']
  | closeParen => [')']
  | caret => ['^']
  | bar => ['|']
  | ampersand => ['&']
  | equals => ['=']

/-- what a diagnostic calls a symbol -/
def name : Symbol → String
  | ellipsis => "Range"
  | starStar => "Exponentiate"
  | lessLess => "LShift"
  | greaterGreater => "RShift"
  | star => "Multiply"
  | slash => "Divide"
  | percent => "Modulus"
  | plus => "Plus"
  | minus => "Minus"
  | openParen => "LParen"
  | closeParen => "RParen"
  | caret => "Xor"
  | bar => "Or"
  | ampersand => "And"
  | equals => "Assignment"

/-- every symbol, longer spellings first -/
def all : List Symbol :=
  [ellipsis, starStar, lessLess, greaterGreater, star, slash, percent, plus, minus, openParen, closeParen, caret, bar,
    ampersand, equals]

/-- the symbol with the longest spelling at the head of `cs` -/
def leading? (cs : List Char) : Option Symbol :=
  all.find? fun s => s.chars.isPrefixOf cs

theorem chars_ne_nil (s : Symbol) : s.chars ≠ [] := by
  cases s <;> simp [chars]

theorem mem_all (s : Symbol) : s ∈ all := by
  cases s <;> simp [all]

/-- the longest spelling stands at the head -/
theorem chars_prefix_of_leading? {cs : List Char} {s : Symbol} (h : leading? cs = some s) : s.chars <+: cs := by
  have := List.find?_some h
  simpa using this

end Symbol

/-- a word that is no name -/
inductive Keyword where
  | sum
  /-- stands before the bounds of a summation -/
  | bounds
  /-- stands before the body of a summation -/
  | body
  | help
deriving DecidableEq, Repr

namespace Keyword

/-- how a word is written -/
def text : Keyword → String
  | sum => "sum"
  | bounds => "over"
  | body => "in"
  | help => "help"

/-- what a diagnostic calls a word -/
def name : Keyword → String
  | sum => "Sum"
  | bounds => "Over"
  | body => "In"
  | help => "Help"

def all : List Keyword := [sum, bounds, body, help]

/-- the word written `text`; case matters -/
def ofText? (text : String) : Option Keyword :=
  all.find? fun k => k.text = text

theorem ofText?_text (k : Keyword) : ofText? k.text = some k := by
  cases k <;> simp [ofText?, all, text]

theorem text_of_ofText? {text : String} {k : Keyword} (h : ofText? text = some k) : k.text = text := by
  have := List.find?_some h
  simpa using this

end Keyword

/-! ## Terminals and tokens -/

/-- what a token is -/
inductive Terminal where
  | eof
  | number (value : Int64)
  | identifier (name : String)
  | symbol (s : Symbol)
  | keyword (k : Keyword)
  | illegal (c : Char)
deriving DecidableEq, Repr

/-- what a diagnostic calls a terminal -/
def Terminal.name : Terminal → String
  | .eof => "EOF"
  | .number _ => "Number"
  | .identifier _ => "Identifier"
  | .symbol s => s.name
  | .keyword k => k.name
  | .illegal _ => "Illegal"

/-- a terminal and the column of its first character, counted from 1 -/
structure Token where
  terminal : Terminal
  column : Nat
deriving DecidableEq, Repr

end LineCalc
