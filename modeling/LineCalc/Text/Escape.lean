/-
How a single character is shown inside a message.

Tab, return, newline, both quotes and the backslash have short forms, other printable ASCII stands for itself, and
everything else is written by its code point.
-/
namespace LineCalc.Text

/-- a code point in lower-case base 16, without leading zeros -/
def codePoint (c : Char) : String :=
  "\\u\x7b" ++ String.ofList (Nat.toDigits 16 c.toNat) ++ "\x7d"

/-- a character as it is shown between single quotes -/
def escape (c : Char) : String :=
  if c = '\t' then "\\t"
  else if c = '\r' then "\\r"
  else if c = '\n' then "\\n"
  else if c = '\'' then "\\'"
  else if c = '"' then "\\\""
  else if c = '\\' then "\\\\"
  else if ' ' ≤ c ∧ c ≤ '~' then c.toString
  else codePoint c

end LineCalc.Text
