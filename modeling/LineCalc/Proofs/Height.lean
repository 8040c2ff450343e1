/-
How deep the evaluation of a recorded tree nests, and what the limit on parentheses does for it.

Evaluating a tree calls itself on the operands, so the calls that are open at once are as many as the tree is high:
`Expr.evaluateWithin` may only nest `frames` calls, and comes to the value of a tree that has one if and only if `frames`
reaches the height (`isSome_evaluateWithin_iff`).

A phrase is made higher by its groups, signs and operators. A group may only be opened in `room` others, and in between
an operand on the right, or behind a sign, is of a tighter kind each time, of which there are seven. So a tree has few
bends, where `Expr.bends` counts the height without the steps to left operands (`Derives.bends_le`). The left operands
are what the limit does not see: a level folds to the left for as long as its operators go on, and a row of sums is as
high as it has terms (`recorded_row`).

Results:
- `recorded_bends`: of a tree that is recorded, the bends are bounded by the limit on parentheses alone, and the height
  by the number of tokens;
- `recorded_height_unbounded`: no bound holds for the height of all trees that are recorded.
-/
import LineCalc.Proofs.Computing

namespace LineCalc

/-! ## Evaluation with a limit on nested calls -/

namespace Expr

/-- how many calls are open at once when a tree is evaluated, the one for the tree itself included -/
def height : Expr → Nat
  | number _ | identifier _ _ => 1
  | negate e => e.height + 1
  | binary _ left right _ => max left.height right.height + 1

/-- the height without the steps to left operands -/
def bends : Expr → Nat
  | number _ | identifier _ _ => 1
  | negate e => e.bends + 1
  | binary _ left right _ => max left.bends (right.bends + 1)

/-- evaluation that gives up where more than `frames` calls would be open at once -/
def evaluateWithin (store : Store) : (frames : Nat) → Expr → Option (Except Diagnostic Int64)
  | 0, _ => none
  | _ + 1, number v => some (.ok v)
  | _ + 1, identifier name column => some (store.read name column)
  | frames + 1, negate e => (evaluateWithin store frames e).map fun r => r.map (- ·)
  | frames + 1, binary op left right column =>
    (evaluateWithin store frames left).bind fun l =>
      match l with
      | .error d => some (.error d)
      | .ok l => (evaluateWithin store frames right).map fun r => r.bind fun r => op.apply l r column

variable {store : Store}

theorem height_pos (e : Expr) : 0 < e.height := by
  cases e <;> simp [height]

/-- enough calls for the height of a tree, and its evaluation comes to an end -/
theorem evaluateWithin_of_height_le {frames : Nat} {e : Expr} (h : e.height ≤ frames) :
    evaluateWithin store frames e = some (e.evaluate store) := by
  induction frames generalizing e with
  | zero => exact absurd h (Nat.not_le.2 e.height_pos)
  | succ frames ih =>
    cases e with
    | number v => rfl
    | identifier name column => rfl
    | negate e =>
      rw [evaluateWithin, ih (Nat.le_of_succ_le_succ h), evaluate]
      cases e.evaluate store <;> rfl
    | binary op left right column =>
      simp only [height] at h
      rw [evaluateWithin, ih (show left.height ≤ frames by omega), ih (show right.height ≤ frames by omega), evaluate]
      cases left.evaluate store with
      | error d => rfl
      | ok l => cases right.evaluate store <;> rfl

/-- what evaluation comes to does not depend on the limit -/
theorem evaluate_of_evaluateWithin {frames : Nat} {e : Expr} {r : Except Diagnostic Int64}
    (h : evaluateWithin store frames e = some r) : e.evaluate store = r := by
  induction frames generalizing e r with
  | zero => cases h
  | succ frames ih =>
    cases e with
    | number v => exact Option.some.inj h
    | identifier name column => exact Option.some.inj h
    | negate e =>
      rw [evaluateWithin, Option.map_eq_some_iff] at h
      obtain ⟨q, hq, rfl⟩ := h
      rw [evaluate, ih hq]
      cases q <;> rfl
    | binary op left right column =>
      rw [evaluateWithin, Option.bind_eq_some_iff] at h
      obtain ⟨l, hl, h⟩ := h
      rw [evaluate, ih hl]
      cases l with
      | error d => exact Option.some.inj h
      | ok l =>
        obtain ⟨q, hq, rfl⟩ := Option.map_eq_some_iff.1 h
        rw [ih hq]
        rfl

/-- a tree with a value is evaluated in all its parts, down to the lowest -/
theorem height_le_of_evaluateWithin {frames : Nat} {e : Expr} {v : Int64}
    (h : evaluateWithin store frames e = some (.ok v)) : e.height ≤ frames := by
  induction frames generalizing e v with
  | zero => cases h
  | succ frames ih =>
    cases e with
    | number w => exact Nat.succ_le_succ (Nat.zero_le frames)
    | identifier name column => exact Nat.succ_le_succ (Nat.zero_le frames)
    | negate e =>
      rw [evaluateWithin, Option.map_eq_some_iff] at h
      obtain ⟨r, hr, h⟩ := h
      cases r with
      | error d => cases h
      | ok w => exact Nat.succ_le_succ (ih hr)
    | binary op left right column =>
      rw [evaluateWithin, Option.bind_eq_some_iff] at h
      obtain ⟨l, hl, h⟩ := h
      cases l with
      | error d => cases h
      | ok l =>
        obtain ⟨r, hr, h⟩ := Option.map_eq_some_iff.1 h
        cases r with
        | error d => cases h
        | ok r =>
          have hleft := ih hl
          have hright := ih hr
          simp only [height]
          omega

/-- **The height is what evaluation takes**: a tree with a value is evaluated with `frames` calls open at once if and
only if it is no higher. -/
theorem isSome_evaluateWithin_iff {frames : Nat} {e : Expr} {v : Int64} (h : e.evaluate store = .ok v) :
    (evaluateWithin store frames e).isSome ↔ e.height ≤ frames := by
  constructor
  · intro hsome
    obtain ⟨r, hr⟩ := Option.isSome_iff_exists.1 hsome
    have hvalue : r = .ok v := (evaluate_of_evaluateWithin hr).symm.trans h
    rw [hvalue] at hr
    exact height_le_of_evaluateWithin hr
  · intro hle
    rw [evaluateWithin_of_height_le hle]
    rfl

end Expr

/-! ## What the limit on parentheses bounds -/

/-- of a phrase, the steps to the right and behind signs are bounded by the groups around each other -/
theorem Derives.bends_le {room : Nat} {p : Phrase} {ts : List Token} {e : Expr} (h : Derives room p ts e) :
    e.bends ≤ 7 * room + (8 - p.strength) + 1 := by
  induction h with
  | @single room l ts e hl _ ih =>
    rw [Level.strength_part] at ih
    show e.bends ≤ 7 * room + (8 - l.strength) + 1
    omega
  | unsigned _ _ ih => simp only [Phrase.strength, Level.strength] at ih ⊢; omega
  | plus _ ih => simp only [Phrase.strength, Level.strength] at ih ⊢; omega
  | minus _ ih => simp only [Phrase.strength, Level.strength, Expr.bends] at ih ⊢; omega
  | @join room column l s op ts us left right _ _ hright ihl ihr =>
    have hpart : l.strength < 8 := by cases l <;> decide
    rw [Level.strength_part] at ihr
    simp only [Phrase.strength, Expr.bends] at ihl ⊢
    omega
  | base _ ih => simp only [Phrase.strength] at ih ⊢; omega
  | power _ _ ihb ihx => simp only [Phrase.strength, Expr.bends] at ihb ihx ⊢; omega
  | group _ ih => simp only [Phrase.strength, Level.strength] at ih ⊢; omega
  | emptyGroup => simp only [Phrase.strength, Expr.bends]; omega
  | identifier => simp only [Phrase.strength, Expr.bends]; omega
  | number => simp only [Phrase.strength, Expr.bends]; omega

/-- each call has a token of its own -/
theorem Derives.height_le_length {room : Nat} {p : Phrase} {ts : List Token} {e : Expr} (h : Derives room p ts e) :
    e.height ≤ ts.length := by
  induction h with
  | single _ _ ih => exact ih
  | unsigned _ _ ih => exact ih
  | plus _ ih => exact Nat.le_succ_of_le ih
  | minus _ ih => exact Nat.succ_le_succ ih
  | join _ _ _ ihl ihr =>
    simp only [Expr.height, List.length_append, List.length_cons]
    omega
  | base _ ih => exact ih
  | power _ _ ihb ihx =>
    simp only [Expr.height, List.length_append, List.length_cons]
    omega
  | group _ ih =>
    simp only [List.length_cons, List.length_append]
    omega
  | emptyGroup => exact Nat.le_succ 1
  | identifier => exact Nat.le_refl 1
  | number =>
    simp only [Expr.height, List.length_append, List.length_singleton]
    omega

/-- **What the limit on parentheses bounds.** Of every tree that is recorded, the steps to the right and behind signs
are bounded by the limit alone, whatever the length of the line. The height, and with it the calls that evaluation has
open at once, is bounded by the tokens that were read. -/
theorem recorded_bends {tokens rest : List Token} {e : Expr}
    (h : (Walk.expression .tree).run tokens = .ok (e, rest)) :
    e.bends ≤ 7 * (maxNesting + 1) + 1 ∧ e.height + rest.length ≤ tokens.length ∧
      ∀ store, Expr.evaluateWithin store (tokens.length - rest.length) e = some (e.evaluate store) := by
  obtain ⟨ts, rfl, hts⟩ := Walk.expression_tree_sound h
  have hbends := hts.bends_le
  have hheight := hts.height_le_length
  simp only [Phrase.strength, Level.strength] at hbends
  rw [List.length_append, Nat.add_sub_cancel]
  exact ⟨by omega, by omega, fun store => Expr.evaluateWithin_of_height_le hheight⟩

/-! ## What it does not bound -/

/-- the tokens of a line `v+v+…+v` with `n` signs, but for its `eof` -/
def rowTokens (v : Int64) : (n : Nat) → List Token
  | 0 => [⟨.number v, 1⟩]
  | n + 1 => rowTokens v n ++ [⟨.symbol .plus, 2 * n + 2⟩, ⟨.number v, 2 * n + 3⟩]

/-- the tree of such a line -/
def rowTree (v : Int64) : (n : Nat) → Expr
  | 0 => .number v
  | n + 1 => .binary .add (rowTree v n) (.number v) (2 * n + 2)

theorem height_rowTree (v : Int64) (n : Nat) : (rowTree v n).height = n + 1 := by
  induction n with
  | zero => rfl
  | succ n ih =>
    simp only [rowTree, Expr.height, ih]
    omega

theorem evaluate_rowTree (store : Store) (v : Int64) (n : Nat) : ∃ w, (rowTree v n).evaluate store = .ok w := by
  induction n with
  | zero => exact ⟨v, rfl⟩
  | succ n ih =>
    obtain ⟨w, hw⟩ := ih
    refine ⟨w + v, ?_⟩
    rw [rowTree, Expr.evaluate, hw]
    rfl

/-- a row is a sum, even where no parenthesis may be opened -/
theorem derives_row (room : Nat) (v : Int64) (n : Nat) :
    Derives room (.level .additive) (rowTokens v n) (rowTree v n) := by
  have hnumber (column : Nat) : Derives room (.level .multiplicative) [⟨.number v, column⟩] (.number v) :=
    .single (by decide) (.base (@Derives.number room column v [] (by simp)))
  induction n with
  | zero => exact .unsigned (hnumber 1) (by rintro (h | h) <;> cases h)
  | succ n ih => exact .join (by decide : (Symbol.plus, Operator.add) ∈ Level.operators .additive) ih (hnumber _)

theorem recorded_row (v : Int64) (n : Nat) :
    (Walk.expression .tree).run (rowTokens v n ++ [⟨.eof, 2 * n + 2⟩]) = .ok (rowTree v n, [⟨.eof, 2 * n + 2⟩]) :=
  Walk.expression_tree (derives_row maxNesting v n).ofSum (stops_eof _)

/-- a row takes a call for each of its numbers -/
theorem evaluateWithin_rowTree (store : Store) (v : Int64) {frames n : Nat} (h : frames ≤ n) :
    Expr.evaluateWithin store frames (rowTree v n) = none := by
  obtain ⟨w, hw⟩ := evaluate_rowTree store v n
  rw [← Option.not_isSome_iff_eq_none, Expr.isSome_evaluateWithin_iff hw, height_rowTree]
  omega

/-- a row of two thousand numbers: few bends, but a call for each number -/
theorem recorded_bends_of_row :
    let rest : List Token := [⟨.eof, 2 * 1999 + 2⟩]
    let tokens := rowTokens 1 1999 ++ rest
    let e := rowTree 1 1999
    (Walk.expression .tree).run tokens = .ok (e, rest) ∧
      (e.bends ≤ 7 * (maxNesting + 1) + 1 ∧ e.height + rest.length ≤ tokens.length ∧
        ∀ store, Expr.evaluateWithin store (tokens.length - rest.length) e = some (e.evaluate store)) ∧
      e.height = 1999 + 1 ∧ ∀ store, Expr.evaluateWithin store 1999 e = none :=
  ⟨recorded_row 1 1999, recorded_bends (recorded_row 1 1999), height_rowTree 1 1999,
    fun store => evaluateWithin_rowTree store 1 (Nat.le_refl 1999)⟩

/-- **What it does not bound.** No bound holds for the height of all trees that are recorded: a row of sums goes to the
left once for each sign. -/
theorem recorded_height_unbounded :
    ¬ ∃ bound, ∀ tokens e rest, (Walk.expression .tree).run tokens = .ok (e, rest) → e.height ≤ bound := by
  rintro ⟨bound, hbound⟩
  have hle := hbound _ _ _ (recorded_row 1 bound)
  rw [height_rowTree] at hle
  exact Nat.not_succ_le_self bound hle

end LineCalc
