/-
Statements: a line is an expression, an assignment `name = expression`, or a summation
`sum name over expression ... expression in expression`.

The target of an assignment or a summation becomes readable before anything else of the statement is read, and stays so
when the rest is refused. An assignment then stores its value. A summation records its body once and evaluates it for
every whole number between its bounds, storing each number in the target first; totals wrap around. What follows the
statement is looked at last.
-/
import LineCalc.Precedence

namespace LineCalc

/-- the most iterations of one summation, which is two to the 24th -/
def maxIterations : Nat := 16777216

/-- what follows the target of a summation -/
structure Summation where
  lower : Int64
  upper : Int64
  /-- where the `...` between the bounds stands -/
  column : Nat
  body : Expr
deriving DecidableEq, Repr

namespace Summation

/-- the bounds and the body; the bounds are computed on `store` -/
def walk (store : Store) : Walk Summation := do
  let _ ← Walk.expect (.keyword .bounds)
  let lower ← Walk.expression (.value store)
  let dots ← Walk.expect (.symbol .ellipsis)
  let upper ← Walk.expression (.value store)
  let _ ← Walk.expect (.keyword .body)
  let body ← Walk.expression .tree
  return ⟨lower, upper, dots.column, body⟩

/-- how many numbers lie between the bounds, both included -/
def count (s : Summation) : Nat :=
  (s.upper.toInt + 1 - s.lower.toInt).toNat

/-- adds the values of `body` for `count` numbers from `index` on to `total` -/
def accumulate (name : String) (body : Expr) :
    (count : Nat) → (index total : Int64) → Store → Except Diagnostic Int64 × Store
  | 0, _, total, store => (.ok total, store)
  | count + 1, index, total, store =>
    let store := store.assign name index
    match body.evaluate store with
    | .ok v => accumulate name body count (index + 1) (total + v) store
    | .error d => (.error d, store)

/-- the total over all numbers between the bounds, and the store it leaves -/
def run (s : Summation) (name : String) (store : Store) : Except Diagnostic Int64 × Store :=
  if s.count > maxIterations then
    (.error (.rangeTooLarge maxIterations s.column), store)
  else
    accumulate name s.body s.count s.lower 0 (store.assign name s.lower)

end Summation

namespace Statement

/-- a name that is about to be given a value -/
def target : Walk String := do
  let t ← Walk.peek
  match t.terminal with
  | .identifier name =>
    Walk.advance
    return name
  | other => Walk.fail (.mismatch "Identifier" other.name t.column)

/-- what a statement yields: its value with the tokens after it, or a diagnostic; and the store in either case -/
abbrev Result := Except Diagnostic (Int64 × List Token) × Store

/-- the expression at the front of `tokens` -/
def expression (tokens : List Token) (store : Store) : Result :=
  ((Walk.expression (.value store)).run tokens, store)

/-- the assignment to `name` of the expression at the front of `tokens` -/
def assignment (name : String) (tokens : List Token) (store : Store) : Result :=
  let store := store.expose name
  match (Walk.expression (.value store)).run tokens with
  | .ok (v, rest) => (.ok (v, rest), store.assign name v)
  | .error d => (.error d, store)

/-- the summation of which `tokens` is what follows `sum` -/
def summation (tokens : List Token) (store : Store) : Result :=
  match target.run tokens with
  | .error d => (.error d, store)
  | .ok (name, tokens) =>
    let store := store.expose name
    match (Summation.walk store).run tokens with
    | .error d => (.error d, store)
    | .ok (s, rest) =>
      let total := s.run name store
      (total.1.map fun v => (v, rest), total.2)

/-- the statement at the front of `tokens` -/
def leading (tokens : List Token) (store : Store) : Result :=
  match tokens with
  | ⟨.keyword .sum, _⟩ :: rest => summation rest store
  | ⟨.identifier name, _⟩ :: ⟨.symbol .equals, _⟩ :: rest => assignment name rest store
  | _ => expression tokens store

/-- the value of a statement that is followed by `rest`, which has to be the end of the line -/
def conclude (value : Int64) (rest : List Token) : Except Diagnostic Int64 :=
  let t := current rest
  match t.terminal with
  | .eof => .ok value
  | .symbol .closeParen => .error (.unmatched .opening t.column)
  | _ => .error (.trailingTokens t.column)

/-- the value of the statement that `tokens` are, and the store it leaves -/
def run (tokens : List Token) (store : Store) : Except Diagnostic Int64 × Store :=
  let result := leading tokens store
  (result.1.bind fun r => conclude r.1 r.2, result.2)

theorem run_fst (tokens : List Token) (store : Store) :
    (run tokens store).1 = (leading tokens store).1.bind fun r => conclude r.1 r.2 := rfl

/-- a line that has a value begins with a statement that has one, and then ends -/
theorem run_eq_ok {tokens : List Token} {store : Store} {v : Int64} (h : (run tokens store).1 = .ok v) :
    ∃ w rest, (leading tokens store).1 = .ok (w, rest) ∧ conclude w rest = .ok v := by
  rw [run_fst] at h
  cases hleading : (leading tokens store).1 with
  | error d => rw [hleading] at h; cases h
  | ok r => rw [hleading] at h; exact ⟨r.1, r.2, rfl, h⟩

end Statement

end LineCalc
