/-
Lexemes: how a line of text falls into tokens.

`Lexeme.read` takes one lexeme off a text that does not begin with a space: a literal, a word of at most
`Lexeme.maxName` letters, the longest symbol that fits, or a character that fits nothing. Its text and what follows it
are the text it was read from (`Lexeme.read_append`). `tokensOf` reads a whole line; spaces count for columns and are
otherwise skipped, every other character belongs to a lexeme, and `eof` comes last and nowhere else.
-/
import LineCalc.Token
import LineCalc.Literal

namespace LineCalc

/-- a terminal and the characters it was read from -/
structure Lexeme where
  terminal : Terminal
  text : List Char
deriving DecidableEq, Repr

namespace Lexeme

/-- the most letters that one word takes -/
def maxName : Nat := 50

/-- a word is a keyword or a name -/
def ofWord (letters : List Char) : Lexeme :=
  let name := String.ofList letters
  match Keyword.ofText? name with
  | some k => ⟨.keyword k, letters⟩
  | none => ⟨.identifier name, letters⟩

/-- the characters that an illegal `c` takes with it: dots that make no `...` go together, all else goes alone -/
def spoiled (c : Char) (cs : List Char) : List Char :=
  if c = '.' then cs.takeWhile (· = '.') else []

/-- the lexeme at the head of `c :: cs`, where `c` is no space, and the text after it -/
def read (c : Char) (cs : List Char) : Lexeme × List Char :=
  if c.isDigit then
    let r := Literal.read (c :: cs)
    (⟨.number r.1.value, r.1.text⟩, r.2)
  else if c.isAlpha then
    let r := Text.splitSpan Char.isAlpha maxName (c :: cs)
    (ofWord r.1, r.2)
  else
    match Symbol.leading? (c :: cs) with
    | some s => (⟨.symbol s, s.chars⟩, (c :: cs).drop s.chars.length)
    | none => (⟨.illegal c, c :: spoiled c cs⟩, cs.drop (spoiled c cs).length)

theorem text_ofWord (letters : List Char) : (ofWord letters).text = letters := by
  simp only [ofWord]
  split <;> rfl

theorem spoiled_isPrefix (c : Char) (cs : List Char) : spoiled c cs <+: cs := by
  unfold spoiled
  split
  · exact List.takeWhile_prefix _
  · exact List.nil_prefix

/-- a lexeme and what follows it make up the text it was read from -/
theorem read_append (c : Char) (cs : List Char) : (read c cs).1.text ++ (read c cs).2 = c :: cs := by
  unfold read
  split
  · exact Literal.read_append (c :: cs)
  · split
    · simp [text_ofWord, Text.splitSpan_append]
    · split
      next s hs => exact List.prefix_iff_eq_append.1 (Symbol.chars_prefix_of_leading? hs)
      next => simpa using List.prefix_iff_eq_append.1 (spoiled_isPrefix c cs)

/-- a lexeme is never empty -/
theorem text_read_ne_nil (c : Char) (cs : List Char) : (read c cs).1.text ≠ [] := by
  unfold read
  split
  next h => exact Literal.text_read_ne_nil h cs
  next =>
    split
    next h => simp [text_ofWord, maxName, Text.splitSpan, h]
    next =>
      split
      next s _ => exact s.chars_ne_nil
      next => simp

theorem length_read_lt (c : Char) (cs : List Char) : (read c cs).2.length < (c :: cs).length := by
  have h := congrArg List.length (read_append c cs)
  have := List.length_pos_iff.2 (text_read_ne_nil c cs)
  rw [List.length_append] at h
  omega

end Lexeme

/-! ## A line -/

/-- the tokens of a text whose first character stands at `column` -/
def tokensFrom (column : Nat) : List Char → List Token
  | [] => [⟨.eof, column⟩]
  | c :: cs =>
    if c = ' ' then tokensFrom (column + 1) cs
    else
      let r := Lexeme.read c cs
      ⟨r.1.terminal, column⟩ :: tokensFrom (column + r.1.text.length) r.2
termination_by cs => cs.length
decreasing_by
  · simp
  · exact Lexeme.length_read_lt c cs

/-- the tokens of a line, with `eof` one column past its last character -/
def tokensOf (line : String) : List Token :=
  tokensFrom 1 line.toList

end LineCalc
