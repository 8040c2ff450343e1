/-
Polynomials: expressions whose value may as well be reduced only once, at the end.

A polynomial is made of numbers, names, signs, sums, differences, products, and powers with a plain number from 0 on as
their exponent (`Expr.IsPolynomial`). `Expr.integer?` is the integer that it stands for, of any size, with names standing
for what is stored under them. Computing wraps around at every step, in whatever order the steps come; `Expr.Reduces`
says that the word computed is the exact integer reduced, and each way of building a polynomial keeps that.

Result:
- `evaluate_polynomial`: a polynomial in readable names has a value, and it is the exact one, reduced once.
-/
import LineCalc.Proofs.Arithmetic
import LineCalc.Proofs.Leftover
import LineCalc.Proofs.Substitution

namespace LineCalc

namespace Expr

/-- the names that an expression reads -/
def names : Expr → List String
  | number _ => []
  | identifier name _ => [name]
  | negate e => e.names
  | binary _ left right _ => left.names ++ right.names

/-- expressions that multiply, add and subtract only -/
inductive IsPolynomial : Expr → Prop
  | number (v : Int64) : IsPolynomial (.number v)
  | identifier (name : String) (column : Nat) : IsPolynomial (.identifier name column)
  | negate {e : Expr} : IsPolynomial e → IsPolynomial (.negate e)
  | binary {op : Operator} {left right : Expr} {column : Nat} :
      op ∈ [.add, .subtract, .multiply] → IsPolynomial left → IsPolynomial right →
      IsPolynomial (.binary op left right column)
  | power {base : Expr} {n : Int64} {column : Nat} :
      0 ≤ n → IsPolynomial base → IsPolynomial (.binary .power base (.number n) column)

/-- the integer that a polynomial stands for; there is none if a name has no value, nor for other expressions -/
def integer? (store : Store) : Expr → Option ℤ
  | number v => some v.toInt
  | identifier name _ => (store.value? name).map Int64.toInt
  | negate e => (e.integer? store).map fun x => -x
  | binary .power base (.number n) _ =>
    if 0 ≤ n then (base.integer? store).map fun x => x ^ n.toInt.toNat else none
  | binary op left right _ => do
    let f ← op.onIntegers?
    let x ← left.integer? store
    let y ← right.integer? store
    return f x y

/-- an expression stands for the integer `x`, and is computed to what `x` is reduced to -/
def Reduces (store : Store) (e : Expr) (x : ℤ) : Prop :=
  e.integer? store = some x ∧ e.evaluate store = .ok (.ofInt x)

namespace Reduces

variable {store : Store} {e left right : Expr} {x y : ℤ}

theorem number (v : Int64) : Reduces store (.number v) v.toInt :=
  ⟨rfl, by rw [evaluate, Int64.ofInt_toInt]⟩

theorem identifier {name : String} {v : Int64} (h : store.value? name = some v) (column : Nat) :
    Reduces store (.identifier name column) v.toInt := by
  refine ⟨by rw [integer?, h]; rfl, ?_⟩
  rw [evaluate, Store.read_of_content (Store.value?_eq_some_iff.1 h), Int64.ofInt_toInt]

theorem negate (h : Reduces store e x) : Reduces store (.negate e) (-x) := by
  obtain ⟨hexact, hvalue⟩ := h
  refine ⟨by rw [integer?, hexact]; rfl, ?_⟩
  rw [evaluate, hvalue, Int64.ofInt_neg]
  rfl

theorem binary {op : Operator} {f : ℤ → ℤ → ℤ} (hop : op.onIntegers? = some f) (hleft : Reduces store left x)
    (hright : Reduces store right y) (column : Nat) : Reduces store (.binary op left right column) (f x y) := by
  obtain ⟨hexactl, hvaluel⟩ := hleft
  obtain ⟨hexactr, hvaluer⟩ := hright
  constructor
  · cases op with
    | add | subtract | multiply =>
      rw [integer?, hop, hexactl, hexactr]
      · rfl
      · intros; contradiction
    | _ => cases hop
  · rw [evaluate, hvaluel, hvaluer]
    exact Operator.apply_ofInt hop x y column

theorem power (h : Reduces store e x) {n : Int64} (hn : 0 ≤ n) (column : Nat) :
    Reduces store (.binary .power e (.number n) column) (x ^ n.toInt.toNat) := by
  obtain ⟨hexact, hvalue⟩ := h
  refine ⟨by rw [integer?, if_pos hn, hexact]; rfl, ?_⟩
  rw [evaluate, hvalue, evaluate]
  exact Operator.apply_power x hn column

end Reduces

/-- **A polynomial is computed exactly, modulo a power of two.** If all its names are readable, it stands for an integer
of any size, and its value is this integer, reduced to a word once. -/
theorem evaluate_polynomial {e : Expr} (h : e.IsPolynomial) (store : Store)
    (hnames : ∀ name ∈ e.names, (store.value? name).isSome) :
    ∃ x : ℤ, e.integer? store = some x ∧ e.evaluate store = .ok (.ofInt x) := by
  show ∃ x, Reduces store e x
  induction h with
  | number v => exact ⟨_, .number v⟩
  | identifier name column =>
    obtain ⟨v, hv⟩ := Option.isSome_iff_exists.1 (hnames name List.mem_cons_self)
    exact ⟨_, .identifier hv column⟩
  | negate _ ih =>
    obtain ⟨x, hx⟩ := ih hnames
    exact ⟨_, hx.negate⟩
  | @binary op left right column hop _ _ ihl ihr =>
    obtain ⟨x, hx⟩ := ihl fun name hname => hnames name (List.mem_append_left _ hname)
    obtain ⟨y, hy⟩ := ihr fun name hname => hnames name (List.mem_append_right _ hname)
    have hintegers : ∃ f, op.onIntegers? = some f := by
      simp only [List.mem_cons, List.not_mem_nil, or_false] at hop
      rcases hop with rfl | rfl | rfl <;> exact ⟨_, rfl⟩
    obtain ⟨f, hf⟩ := hintegers
    exact ⟨_, hx.binary hf hy column⟩
  | @power base n column hn _ ih =>
    obtain ⟨x, hx⟩ := ih fun name hname => hnames name (List.mem_append_left _ hname)
    exact ⟨_, hx.power hn column⟩

/-- the smallest word negated, multiplied and raised, which wraps around at every step -/
theorem evaluate_polynomial_smallest_word :
    let store := Store.empty.assign "x" Int64.minValue
    let x := identifier "x" 1
    let e := binary .add (binary .multiply (negate x) x 2)
      (binary .power (binary .subtract x (number 3) 3) (number 41) 4) 5
    e.IsPolynomial ∧ (∀ name ∈ e.names, (store.value? name).isSome) ∧
      ∃ z : ℤ, e.integer? store = some z ∧ e.evaluate store = .ok (.ofInt z) := by
  intro store x e
  have hx : x.IsPolynomial := .identifier "x" 1
  have he : e.IsPolynomial :=
    .binary (by decide) (.binary (by decide) (.negate hx) hx)
      (.power (by decide) (.binary (by decide) hx (.number 3)))
  have hnames : ∀ name ∈ e.names, (store.value? name).isSome := by decide
  exact ⟨he, hnames, evaluate_polynomial he store hnames⟩

end Expr

end LineCalc
