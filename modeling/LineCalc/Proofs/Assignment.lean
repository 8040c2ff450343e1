/-
What an assignment yields and what it leaves in the store.

The target becomes readable before the expression is computed and gets its value afterwards, so the store is changed
twice, with a computation in between that reads the target and may stop anywhere. Both changes bind the target
(`Store.binds_expose`, `Store.binds_assign_expose`). What is computed in between reads the value that the target held before:
the expression is worth what it is worth with that value in the place of the target (`Expr.evaluate_expose`). A value
that was bound is read however often its name is scanned after that (`Store.Binds.read_noteAll`).

Result:
- `run_assignment_exact`: the value of an assignment, or its diagnostic, and the store it leaves in either case.
-/
import LineCalc.Proofs.Substitution

namespace LineCalc

namespace Statement

/-- **What an assignment yields.** The tree that recording makes of the expression is evaluated on the store with the
target exposed, where the target has the value it had before. That is 0 for a new target and, as long as hidden values
are 0, for one that could not be read before; however deep the target stands in the expression, it might as well be
replaced by this value.
- If the tree has a value, this is the value of the line. The target is bound to it, and is read as that from then on.
- If it has none, its diagnostic is that of the line, and the target is left readable with the value it had before.
The slots of all other names stay as they are. -/
theorem run_assignment_exact {ts : List Token} {e : Expr} (h : Derives maxNesting .exp ts e) (name : String)
    (c₁ c₂ column : Nat) (store : Store) :
    let line := ⟨.identifier name, c₁⟩ :: ⟨.symbol .equals, c₂⟩ :: (ts ++ [⟨.eof, column⟩])
    let exposed := store.expose name
    let old := (store.content name).1
    (Walk.expression .tree).run (ts ++ [⟨.eof, column⟩]) = .ok (e, [⟨.eof, column⟩]) ∧
      store.Binds name old exposed ∧
      (name ∉ store.names → old = 0) ∧
      (store.Kept → old = (store.value? name).getD 0) ∧
      e.evaluate exposed = (e.substitute name old).evaluate store ∧
      (∀ v, e.evaluate exposed = .ok v →
        let after := exposed.assign name v
        run line store = (.ok v, after) ∧ store.Binds name v after ∧
          ∀ us c, (after.noteAll us).read name c = .ok v) ∧
      ∀ d, e.evaluate exposed = .error d →
        run line store = (.error d, exposed) ∧ ∀ us c, (exposed.noteAll us).read name c = .ok old := by
  intro line exposed old
  have hrun := run_assignment h name c₁ c₂ column store
  have hexposed : store.Binds name old exposed := store.binds_expose name
  refine ⟨Walk.expression_tree h (stops_eof column), hexposed, Store.stored_of_notMem, fun hkept => ?_,
    e.evaluate_expose store name, fun v hv => ?_, fun d hd => ?_⟩
  · show (store.content name).1 = _
    rw [hkept.content_eq]
    cases store.value? name <;> rfl
  · intro after
    have hafter : store.Binds name v after := store.binds_assign_expose name v
    rw [hv] at hrun
    exact ⟨hrun, hafter, hafter.read_noteAll⟩
  · rw [hd] at hrun
    exact ⟨hrun, hexposed.read_noteAll⟩

/-- `x = (x)` and `x = y` with 4 in `x`: the first leaves it there, and so does the second, which fails -/
theorem run_assignment_exact_to_itself :
    let store := Store.empty.assign "x" 4
    Derives maxNesting .exp [⟨.symbol .openParen, 5⟩, ⟨.identifier "x", 6⟩, ⟨.symbol .closeParen, 7⟩]
        (.identifier "x" 6) ∧
      run [⟨.identifier "x", 1⟩, ⟨.symbol .equals, 3⟩, ⟨.symbol .openParen, 5⟩, ⟨.identifier "x", 6⟩,
        ⟨.symbol .closeParen, 7⟩, ⟨.eof, 8⟩] store = (.ok 4, (store.expose "x").assign "x" 4) ∧
      run [⟨.identifier "x", 1⟩, ⟨.symbol .equals, 3⟩, ⟨.identifier "y", 5⟩, ⟨.eof, 6⟩] store =
        (.error (.unassigned "y" 5), store.expose "x") := by
  intro store
  have hgroup : Derives maxNesting .exp [⟨.symbol .openParen, 5⟩, ⟨.identifier "x", 6⟩, ⟨.symbol .closeParen, 7⟩]
      (.identifier "x" 6) :=
    .ofFactor (.group (.ofIdentifier _ "x" 6)) (by decide)
  obtain ⟨-, -, -, -, -, hok, -⟩ := run_assignment_exact hgroup "x" 1 3 8 store
  obtain ⟨-, -, -, -, -, -, herror⟩ := run_assignment_exact (.ofIdentifier maxNesting "y" 5) "x" 1 3 6 store
  exact ⟨hgroup, (hok 4 (by decide)).1, (herror (.unassigned "y" 5) (by decide)).1⟩

end Statement

end LineCalc
