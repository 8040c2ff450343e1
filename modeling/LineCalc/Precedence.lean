/-
Precedence: how operators and operands make an expression.

Six levels of operators fold to the left, from `|` at the outside to `*`, `/` and `%`; `**` binds tighter and takes one
right operand only, so that a second `**` is left over. A sum may begin with a sign, which applies to its first term,
and a number may carry signs of its own. A group counts against the number of parentheses that may be open, and an
empty group is worth 0.

The walk is the same whether it computes or records: it sees a `Meaning` and nothing of what that builds.
-/
import LineCalc.Walk
import LineCalc.Expr

namespace LineCalc

/-- the most parentheses that may be open at once -/
def maxNesting : Nat := 100

/-- the operators of one strength -/
inductive Level where
  | bitOr
  | bitXor
  | bitAnd
  | shift
  | additive
  | multiplicative
deriving DecidableEq, Repr

/-- the operator that a terminal stands for on a level -/
def Level.operator? : Level → Terminal → Option Operator
  | bitOr, .symbol .bar => some .bitOr
  | bitXor, .symbol .caret => some .bitXor
  | bitAnd, .symbol .ampersand => some .bitAnd
  | shift, .symbol .lessLess => some .shiftLeft
  | shift, .symbol .greaterGreater => some .shiftRight
  | additive, .symbol .plus => some .add
  | additive, .symbol .minus => some .subtract
  | multiplicative, .symbol .star => some .multiply
  | multiplicative, .symbol .slash => some .divide
  | multiplicative, .symbol .percent => some .modulo
  | _, _ => none

namespace Walk

variable {α : Type}

/-! ## One level -/

/-- the tokens after a first operand, as long as an operator of the level and an operand follow -/
def foldRun (m : Meaning α) (level : Level) (operand : Walk α) (left : α) :
    List Token → Except Diagnostic (α × List Token)
  | [] => .ok (left, [])
  | t :: tokens =>
    match level.operator? t.terminal with
    | none => .ok (left, t :: tokens)
    | some op =>
      match _h : operand.run tokens with
      | .error d => .error d
      | .ok (right, rest) =>
        match m.binary op left right t.column with
        | .error d => .error d
        | .ok folded => foldRun m level operand folded rest
termination_by tokens => tokens.length
decreasing_by
  have := (operand.suffix ‹_›).length_le
  simp only [List.length_cons]
  omega

theorem foldRun_suffix (m : Meaning α) (level : Level) (operand : Walk α) (left : α) {tokens rest : List Token}
    {a : α} (h : foldRun m level operand left tokens = .ok (a, rest)) : rest <:+ tokens := by
  fun_induction foldRun m level operand left tokens with
  | case1 => cases h; exact List.suffix_refl _
  | case2 => cases h; exact List.suffix_refl _
  | case3 => cases h
  | case4 => cases h
  | case5 left t tokens op _ right mid hr folded _ ih =>
    exact ((ih h).trans (operand.suffix hr)).trans (List.suffix_cons t tokens)

section
variable {m : Meaning α} {level : Level} {operand : Walk α} {left : α} {t : Token} {tokens : List Token}

theorem foldRun_of_none (h : level.operator? (current tokens).terminal = none) :
    foldRun m level operand left tokens = .ok (left, tokens) := by
  cases tokens with
  | nil => rw [foldRun]
  | cons t tokens =>
    simp only [current] at h
    rw [foldRun, h]

theorem foldRun_of_some {op : Operator} (h : level.operator? t.terminal = some op) :
    foldRun m level operand left (t :: tokens) =
      (operand.run tokens).bind fun r =>
        (m.binary op left r.1 t.column).bind fun folded => foldRun m level operand folded r.2 := by
  rw [foldRun]
  simp only [h]
  split
  next hr => rw [hr]; rfl
  next right rest hr =>
    rw [hr]
    show _ = (m.binary op left right t.column).bind _
    cases m.binary op left right t.column <;> rfl

end

/-- operands of a level after a first one, folded to the left -/
def fold (m : Meaning α) (level : Level) (operand : Walk α) (left : α) : Walk α where
  run := foldRun m level operand left
  suffix := foldRun_suffix m level operand left

/-- operands of a level, folded to the left -/
def chain (m : Meaning α) (level : Level) (operand : Walk α) : Walk α := do
  let first ← operand
  fold m level operand first

/-! ## Operands -/

/-- whether the signs at the front make a negation, and the tokens after them -/
def signs : List Token → Bool × List Token
  | [] => (false, [])
  | t :: tokens =>
    match t.terminal with
    | .symbol .minus => (!(signs tokens).1, (signs tokens).2)
    | .symbol .plus => signs tokens
    | _ => (false, t :: tokens)

theorem signs_suffix (tokens : List Token) : (signs tokens).2 <:+ tokens := by
  induction tokens with
  | nil => exact List.suffix_refl _
  | cons t tokens ih =>
    unfold signs
    split
    · exact ih.trans (List.suffix_cons t tokens)
    · exact ih.trans (List.suffix_cons t tokens)
    · exact List.suffix_refl _

/-- any number of signs; whether they make a negation -/
def signRun : Walk Bool where
  run tokens := .ok (signs tokens)
  suffix {tokens b rest} h := by
    have hs := signs_suffix tokens
    rw [Except.ok.inj h] at hs
    exact hs

/-- a number with its own signs -/
def signedNumber (m : Meaning α) : Walk α := do
  let negative ← signRun
  let found ← peek
  match found.terminal with
  | .number v =>
    advance
    return m.number (if negative then -v else v)
  | other => fail (.mismatch "Number" other.name found.column)

/-- what stands right after a `(`: what `inner` reads, or nothing at all, which is worth 0 and leaves the `)` alone -/
def orEmpty (m : Meaning α) (inner : Walk α) : Walk α := do
  let t ← peek
  if t.terminal = .symbol .closeParen then
    return m.number 0
  else
    inner

/-- what stands in parentheses after the one that was opened at `column`; `inner` reads it unless it is empty -/
def group (m : Meaning α) (inner : Walk α) (column : Nat) : Walk α := do
  let a ← orEmpty m inner
  if ← accept (.symbol .closeParen) then
    return a
  else
    fail (.unmatched .closing column)

/-- a group, a name or a number; `inner` reads a group, and is missing where no group may be opened any more -/
def operand (m : Meaning α) (inner : Option (Walk α)) : Walk α := do
  let t ← peek
  match t.terminal with
  | .symbol .openParen =>
    advance
    match inner with
    | none => fail (.nestingTooDeep maxNesting t.column)
    | some inner => group m inner t.column
  | .symbol .closeParen => fail (.unmatched .opening t.column)
  | .identifier name =>
    advance
    lift (m.identifier name t.column)
  | _ => signedNumber m

/-! ## Expressions -/

/-- an operand and the power it is raised to, if there is one -/
def power (m : Meaning α) (factor : Walk α) : Walk α := do
  let base ← factor
  let t ← peek
  if t.terminal = .symbol .starStar then
    advance
    let exponent ← factor
    lift (m.binary .power base exponent t.column)
  else
    return base

/-- a sign that the next token may be; whether it is a minus -/
def sign : Walk Bool := do
  if ← accept (.symbol .minus) then
    return true
  else
    let _ ← accept (.symbol .plus)
    return false

/-- a sum, whose first term takes the sign before it -/
def sum (m : Meaning α) (term : Walk α) : Walk α := do
  let negative ← sign
  let first ← term
  fold m .additive term (if negative then m.negate first else first)

/-- every level above the operands that `factor` reads -/
def levels (m : Meaning α) (factor : Walk α) : Walk α :=
  let term := chain m .multiplicative (power m factor)
  chain m .bitOr (chain m .bitXor (chain m .bitAnd (chain m .shift (sum m term))))

/-- an operand, inside of which `room` parentheses may be opened -/
def factor (m : Meaning α) : Nat → Walk α
  | 0 => operand m none
  | room + 1 => operand m (some (levels m (factor m room)))

/-- an expression, inside of which `room` parentheses may be opened -/
def expressionIn (m : Meaning α) (room : Nat) : Walk α :=
  levels m (factor m room)

/-- an expression of a line -/
def expression (m : Meaning α) : Walk α :=
  expressionIn m maxNesting

/-! ## Expressions at a place of a line -/

/-- an expression inside of which `room` parentheses may be opened; `opened` tells whether a `(` stands right before -/
def expressionAfter (m : Meaning α) (opened : Bool) (room : Nat) : Walk α :=
  if opened then orEmpty m (expressionIn m room) else expressionIn m room

/-- whether a `(` stands right before the token at `cursor` -/
def opensAt (tokens : List Token) (cursor : Nat) : Bool :=
  cursor ≠ 0 && (tokens[cursor - 1]?).map Token.terminal = some (.symbol .openParen)

/-- the expression that begins at `cursor`, where `depth` parentheses are open, and the cursor after it -/
def expressionAt (m : Meaning α) (tokens : List Token) (cursor depth : Nat) : Except Diagnostic (α × Nat) :=
  ((expressionAfter m (opensAt tokens cursor) (maxNesting - depth)).run (tokens.drop cursor)).map fun r =>
    (r.1, tokens.length - r.2.length)

end Walk

end LineCalc
