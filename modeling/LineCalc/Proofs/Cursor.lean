/-
The parser as a machine: a cursor into a row of tokens, a count of open parentheses, and a store.

Walks (`Walk`) hand on what is left of the tokens, so they cannot look at a place that is not there. A `Parser` can: it
asks for the token at an index, and stops if there is none (`Halt.outside`). It decides by itself how deep it is in
parentheses, counting up before a group and down after it, and it goes on for as long as operators, signs and groups
follow. Calls and rounds are therefore limited by a number that is handed down (`rounds`), and `Halt.exhausted` tells
that it did not suffice.

Everything a run does is noted in its journal: each look at a token, with the cursor and the depth at that moment, and
each call of a level of the grammar, with the depth when it begins and when it ends, be it with a phrase or with a
diagnostic.
-/
import LineCalc.Statement
import LineCalc.Proofs.Grammar

namespace LineCalc

/-! ## Machine states -/

/-- something that a run notes -/
inductive Event where
  /-- the token at `index` is asked for -/
  | look (index cursor depth : Nat)
  /-- the reading of a phrase begins -/
  | enter (phrase : Phrase) (depth : Nat)
  /-- it ends, in a phrase or not -/
  | leave (phrase : Phrase) (depth : Nat)
deriving DecidableEq, Repr

/-- why a run ends without a result -/
inductive Halt where
  | refused (d : Diagnostic)
  /-- there is no token at `index` -/
  | outside (index : Nat)
  | exhausted
deriving DecidableEq, Repr

structure Parser where
  tokens : List Token
  cursor : Nat
  /-- how many parentheses are open -/
  depth : Nat
  store : Store
  journal : List Event
deriving DecidableEq, Repr

namespace Parser

def start (tokens : List Token) (store : Store) : Parser := ⟨tokens, 0, 0, store, []⟩

def note (p : Parser) (e : Event) : Parser := { p with journal := p.journal ++ [e] }

/-- a piece of a run: it ends in a result or a halt, and in a new state -/
def Action (α : Type) := Parser → Except Halt α × Parser

variable {α β : Type}

namespace Action

/-- a halt ends everything after it -/
protected def bind (x : Action α) (f : α → Action β) : Action β := fun p =>
  match x p with
  | (.ok a, p') => f a p'
  | (.error h, p') => (.error h, p')

instance : Monad Action where
  pure a := fun p => (.ok a, p)
  bind := Action.bind

theorem bind_of_ok {x : Action α} {a : α} {p q : Parser} (h : x p = (.ok a, q)) (f : α → Action β) :
    (x >>= f) p = f a q := by
  show Action.bind x f p = _
  rw [Action.bind, h]

theorem bind_of_error {x : Action α} {e : Halt} {p q : Parser} (h : x p = (.error e, q)) (f : α → Action β) :
    (x >>= f) p = (.error e, q) := by
  show Action.bind x f p = _
  rw [Action.bind, h]

end Action

def halt (h : Halt) : Action α := fun p => (.error h, p)

def refuse (d : Diagnostic) : Action α := halt (.refused d)

/-- a result that needs no tokens -/
def ofExcept (r : Except Diagnostic α) : Action α := fun p => (r.mapError Halt.refused, p)

/-! ## Tokens -/

/-- the token at `index`, which has to be there -/
def look (index : Nat) : Action Token := fun p =>
  match p.tokens[index]? with
  | some t => (.ok t, p.note (.look index p.cursor p.depth))
  | none => (.error (.outside index), p.note (.look index p.cursor p.depth))

def peek : Action Token := fun p => look p.cursor p

def previous : Action Token := fun p => look (p.cursor - 1) p

def atEnd : Action Bool := do
  let t ← peek
  return t.terminal = .eof

def move : Action Unit := fun p => (.ok (), { p with cursor := p.cursor + 1 })

/-- takes the next token, unless it is `eof`; the token before the cursor -/
def advance : Action Token := do
  if ← atEnd then
    previous
  else
    move
    previous

def check (t : Terminal) : Action Bool := do
  let found ← peek
  return found.terminal = t

/-- whether the token after the next one is `t`; it may be missing -/
def checkSecond (t : Terminal) : Action Bool := fun p =>
  (.ok ((p.tokens[p.cursor + 1]?).any fun u => u.terminal = t), p)

/-- takes the next token, which has to be `t` -/
def consume (t : Terminal) : Action Token := do
  if ← check t then
    advance
  else
    let found ← peek
    refuse (.mismatch t.name found.terminal.name found.column)

/-- takes the first of some operators that stands next, with its column -/
def takeOperator : List (Symbol × Operator) → Action (Option (Operator × Nat))
  | [] => return none
  | (s, op) :: operators => do
    if ← check (.symbol s) then
      let t ← advance
      return some (op, t.column)
    else
      takeOperator operators

/-! ## Levels of the grammar -/

/-- reads a phrase, and notes when that begins and ends -/
def call (phrase : Phrase) (x : Action α) : Action α := fun p =>
  let r := x (p.note (.enter phrase p.depth))
  (r.1, r.2.note (.leave phrase r.2.depth))

/-- reads what stands in a group -/
def inGroup (x : Action α) : Action α := fun p =>
  let r := x { p with depth := p.depth + 1 }
  (r.1, { r.2 with depth := r.2.depth - 1 })

/-- operands of a level after a first one, folded to the left -/
def fold (m : Meaning α) (level : Level) (operand : Action α) : (rounds : Nat) → (left : α) → Action α
  | 0, _ => halt .exhausted
  | rounds + 1, left => do
    match ← takeOperator level.operators with
    | none => return left
    | some (op, column) =>
      let right ← operand
      let folded ← ofExcept (m.binary op left right column)
      fold m level operand rounds folded

def chain (m : Meaning α) (level : Level) (rounds : Nat) (operand : Action α) : Action α :=
  call (.level level) do
    let first ← operand
    fold m level operand rounds first

/-- a sign that the next token may be; whether it is a minus -/
def sign : Action Bool := do
  if ← check (.symbol .plus) then
    let _ ← advance
    return false
  else if ← check (.symbol .minus) then
    let _ ← advance
    return true
  else
    return false

/-- a sum, whose first term takes the sign before it -/
def sum (m : Meaning α) (rounds : Nat) (term : Action α) : Action α :=
  call (.level .additive) do
    let negative ← sign
    let first ← term
    fold m .additive term rounds (if negative then m.negate first else first)

/-- an operand and the power it is raised to, if there is one -/
def power (m : Meaning α) (factor : Action α) : Action α :=
  call .exponent do
    let base ← factor
    if ← check (.symbol .starStar) then
      let t ← advance
      let exponent ← factor
      ofExcept (m.binary .power base exponent t.column)
    else
      return base

/-- any number of signs; whether they and those before make a negation -/
def signs : (rounds : Nat) → (negative : Bool) → Action Bool
  | 0, _ => halt .exhausted
  | rounds + 1, negative => do
    if ← check (.symbol .minus) then
      let _ ← advance
      signs rounds (!negative)
    else if ← check (.symbol .plus) then
      let _ ← advance
      signs rounds negative
    else
      return negative

def signedNumber (m : Meaning α) (rounds : Nat) : Action α := do
  let negative ← signs rounds false
  let found ← peek
  match found.terminal with
  | .number v =>
    let _ ← advance
    return m.number (if negative then -v else v)
  | other => refuse (.mismatch "Number" other.name found.column)

/-- whether the token before the cursor is a `(`; at the beginning there is none -/
def afterOpening : Action Bool := fun p =>
  if p.cursor = 0 then (.ok false, p)
  else (do
    let t ← previous
    return t.terminal = .symbol .openParen : Action Bool) p

/-- what stands in a group, and its `)` -/
def inParens (inner : Action α) (column : Nat) : Action α := do
  let a ← inGroup inner
  if ← check (.symbol .closeParen) then
    let _ ← advance
    return a
  else
    refuse (.unmatched .closing column)

/-- what follows the `(` at `column`, which was taken -/
def group (inner : Action α) (column : Nat) : Action α := fun p =>
  if p.depth = maxNesting then refuse (.nestingTooDeep maxNesting column) p else inParens inner column p

/-- a group, a name or a number. A `)` right after its `(` is left to the group, which is then worth 0. -/
def operand (m : Meaning α) (rounds : Nat) (inner : Action α) : Action α :=
  call .factor do
    let t ← peek
    match t.terminal with
    | .symbol .openParen =>
      let _ ← advance
      group inner t.column
    | .symbol .closeParen =>
      if ← afterOpening then
        return m.number 0
      else
        refuse (.unmatched .opening t.column)
    | .identifier name =>
      let _ ← advance
      ofExcept (m.identifier name t.column)
    | _ => signedNumber m rounds

/-- every level above the operands -/
def levels (m : Meaning α) (rounds : Nat) (factor : Action α) : Action α :=
  let term := chain m .multiplicative rounds (power m factor)
  chain m .bitOr rounds (chain m .bitXor rounds (chain m .bitAnd rounds (chain m .shift rounds (sum m rounds term))))

def factor (m : Meaning α) : (rounds : Nat) → Action α
  | 0 => halt .exhausted
  | rounds + 1 => operand m (rounds + 1) (levels m rounds (factor m rounds))

def expression (m : Meaning α) (rounds : Nat) : Action α :=
  levels m rounds (factor m rounds)

/-! ## Statements -/

def changeStore (f : Store → Store) : Action Unit := fun p => (.ok (), { p with store := f p.store })

/-- an expression, computed on the store as it is -/
def value (rounds : Nat) : Action Int64 := fun p => expression (.value p.store) rounds p

/-- a name that is about to be given a value -/
def target : Action String := do
  let t ← peek
  match t.terminal with
  | .identifier name =>
    let _ ← advance
    return name
  | other => refuse (.mismatch "Identifier" other.name t.column)

def assignment (rounds : Nat) : Action Int64 := do
  let name ← target
  changeStore fun s => s.expose name
  let _ ← consume (.symbol .equals)
  let v ← value rounds
  changeStore fun s => s.assign name v
  return v

/-- the total of a summation, which takes no more tokens -/
def total (s : Summation) (name : String) : Action Int64 := fun p =>
  let r := s.run name p.store
  (r.1.mapError Halt.refused, { p with store := r.2 })

/-- what follows the target of a summation -/
def afterTarget (rounds : Nat) : Action Summation := do
  let _ ← consume (.keyword .bounds)
  let lower ← value rounds
  let dots ← consume (.symbol .ellipsis)
  let upper ← value rounds
  let _ ← consume (.keyword .body)
  let body ← expression .tree rounds
  return ⟨lower, upper, dots.column, body⟩

def summation (rounds : Nat) : Action Int64 := do
  let _ ← consume (.keyword .sum)
  let name ← target
  changeStore fun s => s.expose name
  let s ← afterTarget rounds
  total s name

/-- the statement that the next two tokens tell -/
def statement (rounds : Nat) : Action Int64 := do
  if ← check (.keyword .sum) then
    summation rounds
  else
    let t ← peek
    match t.terminal with
    | .identifier _ =>
      if ← checkSecond (.symbol .equals) then
        assignment rounds
      else
        value rounds
    | _ => value rounds

/-- the value of a whole line -/
def parse (rounds : Nat) : Action Int64 := do
  let v ← statement rounds
  if ← atEnd then
    return v
  else
    let leftover ← peek
    match leftover.terminal with
    | .symbol .closeParen => refuse (.unmatched .opening leftover.column)
    | _ => refuse (.trailingTokens leftover.column)

end Parser

end LineCalc
