/-
Expressions, and the two meanings a grammar can build: the value itself, or a tree that is evaluated later.

A `Meaning α` says what to make of a number, a name, a negation and a binary operation. `Meaning.value` computes on a
store, `Meaning.tree` records an `Expr`. Columns of names and operators are kept, because diagnostics need them.
-/
import LineCalc.Operator
import LineCalc.Store

namespace LineCalc

/-- an expression with the columns of its names and operators -/
inductive Expr where
  | number (value : Int64)
  | identifier (name : String) (column : Nat)
  | negate (operand : Expr)
  | binary (op : Operator) (left right : Expr) (column : Nat)
deriving DecidableEq, Repr

/-- the value of an expression on a store; the leftmost failing operand decides what is reported -/
def Expr.evaluate (store : Store) : Expr → Except Diagnostic Int64
  | number v => .ok v
  | identifier name column => store.read name column
  | negate e => do
    let v ← e.evaluate store
    return -v
  | binary op left right column => do
    let l ← left.evaluate store
    let r ← right.evaluate store
    op.apply l r column

/-- what is made of each construct of an expression -/
structure Meaning (α : Type) where
  number : Int64 → α
  identifier : String → Nat → Except Diagnostic α
  negate : α → α
  binary : Operator → α → α → Nat → Except Diagnostic α

namespace Meaning

/-- computes at once -/
def value (store : Store) : Meaning Int64 where
  number := id
  identifier := store.read
  negate v := -v
  binary op l r column := op.apply l r column

/-- records for later -/
def tree : Meaning Expr where
  number := .number
  identifier name column := .ok (.identifier name column)
  negate := .negate
  binary op l r column := .ok (.binary op l r column)

end Meaning

end LineCalc
