/-
The eleven binary operators on 64-bit signed words.

Everything wraps around. Division and remainder go toward zero, shift amounts count modulo 64, a right shift brings in
zeros, and a negative power is the integer part of the fraction. Only division, remainder and a negative power of zero
can fail, each at the operator's column.
-/
import LineCalc.Diagnostic

namespace LineCalc

inductive Operator where
  | bitOr
  | bitXor
  | bitAnd
  | shiftLeft
  | shiftRight
  | add
  | subtract
  | multiply
  | divide
  | modulo
  | power
deriving DecidableEq, Repr

namespace Operator

/-- `acc * base ^ n`, by squaring -/
def powerFrom (acc base : Int64) (n : Nat) : Int64 :=
  if n = 0 then acc
  else powerFrom (if n % 2 = 1 then acc * base else acc) (base * base) (n / 2)
termination_by n

/-- a power; with a negative exponent, the fraction it stands for without its fractional part -/
def raise (base exponent : Int64) (column : Nat) : Except Diagnostic Int64 :=
  if 0 ≤ exponent then .ok (powerFrom 1 base exponent.toNatClampNeg)
  else if base = 0 then .error (.powerOfZero column)
  else if base = 1 then .ok 1
  else if base = -1 then .ok (if exponent % 2 = 0 then 1 else -1)
  else .ok 0

/-- the bits of `word` moved toward the low end, with zeros coming in -/
def shiftDown (word amount : Int64) : Int64 :=
  (word.toUInt64 >>> amount.toUInt64).toInt64

/-- the value of `left op right`; `column` is the operator's -/
def apply (op : Operator) (left right : Int64) (column : Nat) : Except Diagnostic Int64 :=
  match op with
  | bitOr => .ok (left ||| right)
  | bitXor => .ok (left ^^^ right)
  | bitAnd => .ok (left &&& right)
  | shiftLeft => .ok (left <<< right)
  | shiftRight => .ok (shiftDown left right)
  | add => .ok (left + right)
  | subtract => .ok (left - right)
  | multiply => .ok (left * right)
  | divide => if right = 0 then .error (.divisionByZero column) else .ok (left / right)
  | modulo => if right = 0 then .error (.modulusByZero column) else .ok (left % right)
  | power => raise left right column

end Operator

end LineCalc
