/-
The help page that a line holding `help` alone is answered with.
-/
namespace LineCalc

/-- the lines of the help page -/
def manualLines : List String :=
  ["Each line is evaluated as one integer expression, for example:",
    "  1 + 2 * 3",
    "  x = 0x1F",
    "  sum i over 1...10 in i ** 2",
    "",
    "Literals: decimal (17), hexadecimal (0x1F), binary (0b101).",
    "Operators, lowest to highest precedence:",
    "  |   ^   &   << >>   + -   * / %   **",
    "",
    "Grammar:",
    "  --------- Lowest Precedence ---------",
    "  Block       -> Assignment | Summation | Exp",
    "  Assignment  -> LValue '=' Exp",
    "  Summation   -> 'sum' LValue 'over' Subrange 'in' Exp",
    "  Subrange    -> Exp '...' Exp",
    "  Exp         -> BitwiseOr",
    "  BitwiseOr   -> BitwiseXor \x7b'|' BitwiseXor\x7d",
    "  BitwiseXor  -> BitwiseAnd \x7b'^' BitwiseAnd\x7d",
    "  BitwiseAnd  -> Bitshift \x7b'&' Bitshift\x7d",
    "  Bitshift    -> Arith \x7b('<<' | '>>') Arith\x7d",
    "  Arith       -> ['+' | '-'] Term \x7b('+' | '-') Term\x7d",
    "  Term        -> Exponent \x7b('*' | '/' | '%') Exponent\x7d",
    "  Exponent    -> Factor ['**' Factor]",
    "  Factor      -> '(' Exp ')' | \x7b'+' | '-'\x7d Numeric | LValue",
    "  Numeric     -> ['0x' | '0b'] DIGITS",
    "  LValue      -> IDENTIFIER",
    "  --------- Highest Precedence ---------",
    "",
    "Variables keep their values for the rest of the session.",
    "A summation runs at most 16777216 iterations; parentheses nest at most 100 deep."]

/-- the help page, without a newline at its end -/
def manual : String :=
  String.intercalate "\n" manualLines

end LineCalc
