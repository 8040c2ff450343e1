/-
Giving a name a value is writing the value in its place.

`Expr.substitute` puts a number in the place of a name. Where a change of the store makes a name readable, an expression
is worth on the changed store what the expression with the name's new value in its place is worth on the old one
(`evaluate_change`): no other name is read differently, and what the name held before does not show. `evaluate_expose`
and `evaluate_assign` are the two changes that statements make. What either leaves is told by `Store.Binds`, which says
of a store that it is another one but for the value of one name (`binds_expose`, `binds_assign`).

Result:
- `evaluate_bound`: an expression on a store that was given a value for a name.
-/
import LineCalc.Proofs.Readability

namespace LineCalc

/-- the expression with the number `v` wherever it has `name` -/
def Expr.substitute (name : String) (v : Int64) : Expr → Expr
  | number w => .number w
  | identifier other column => if other = name then .number v else .identifier other column
  | negate e => .negate (e.substitute name v)
  | binary op left right column => .binary op (left.substitute name v) (right.substitute name v) column

namespace Store

variable (s : Store) (name : String)

/-- a readable name is worth what it holds, wherever it is read -/
theorem read_of_content {s : Store} {name : String} {v : Int64} (h : s.content name = (v, true)) (column : Nat) :
    s.read name column = .ok v := by
  cases hread : s.read name column with
  | ok w =>
    unfold read at hread
    rw [content] at h
    split at hread
    next => cases hread
    next slot hslot =>
      rw [hslot] at h
      obtain ⟨rfl, hassigned⟩ := Prod.mk.inj h
      rw [Slot.value?, show slot.assigned = true from hassigned] at hread
      exact hread.symm
  | error d =>
    have hhidden := (unreadable_of_read hread).1
    rw [h] at hhidden
    cases hhidden

theorem read_change_self {f : Slot → Slot} (hf : ∀ slot, (f slot).name = slot.name)
    (hassigned : ∀ slot, (f slot).assigned = true) (column : Nat) :
    (s.change name f).read name column = .ok (f ((s.find? name).getD (Slot.fresh name))).stored := by
  apply read_of_content
  rw [content_change_self s name hf, hassigned]

theorem read_change_of_ne {name other : String} {f : Slot → Slot} (hf : ∀ slot, (f slot).name = slot.name)
    (h : other ≠ name) (column : Nat) : (s.change name f).read other column = s.read other column := by
  rw [read, find?_change_of_ne s f hf h]
  rfl

end Store

/-! ## Stores with one name bound -/

namespace Store

/-- `after` is `before`, but that `name` has the value `v`; a new name gets its slot at the end -/
structure Binds (before : Store) (name : String) (v : Int64) (after : Store) : Prop where
  names : after.names = if name ∈ before.names then before.names else before.names ++ [name]
  slot : after.find? name = some ⟨name, v, true, ((before.find? name).getD (Slot.fresh name)).column⟩
  others : ∀ other, other ≠ name → after.find? other = before.find? other

variable (s : Store) (name : String)

theorem binds_expose : s.Binds name (s.content name).1 (s.expose name) where
  names := s.names_change name _ fun _ => rfl
  slot := by
    rw [expose, find?_change_self s name _ (by intro; rfl), name_find?_getD]
    rfl
  others other hother := s.find?_change_of_ne _ (fun _ => rfl) hother

theorem binds_assign (v : Int64) : s.Binds name v (s.assign name v) where
  names := s.names_change name _ fun _ => rfl
  slot := by
    rw [assign, find?_change_self s name _ (by intro; rfl), name_find?_getD]
  others other hother := s.find?_change_of_ne _ (fun _ => rfl) hother

/-- a name that is about to be assigned need not be made readable first -/
theorem assign_expose (v : Int64) : (s.expose name).assign name v = s.assign name v :=
  s.change_change name _ fun _ => rfl

theorem binds_assign_expose (v : Int64) : s.Binds name v ((s.expose name).assign name v) := by
  rw [assign_expose]
  exact s.binds_assign name v

/-- what is bound is read, whatever was scanned in the meantime -/
theorem Binds.read_noteAll {before after : Store} {name : String} {v : Int64} (h : before.Binds name v after)
    (ts : List Token) (column : Nat) : (after.noteAll ts).read name column = .ok v := by
  apply read_of_content
  rw [content_noteAll, content, h.slot]
  rfl

/-- a new name holds 0 -/
theorem stored_of_notMem {s : Store} {name : String} (h : name ∉ s.names) : (s.content name).1 = 0 := by
  rw [mem_names_iff, not_not] at h
  rw [content, h]
  rfl

end Store

/-! ## Names replaced by their values -/

namespace Expr

/-- **Binding is substitution**: a name that a change makes readable might as well be replaced by its new value. -/
theorem evaluate_change (e : Expr) (s : Store) (name : String) {f : Slot → Slot}
    (hf : ∀ slot, (f slot).name = slot.name) (hassigned : ∀ slot, (f slot).assigned = true) :
    e.evaluate (s.change name f) =
      (e.substitute name (f ((s.find? name).getD (Slot.fresh name))).stored).evaluate s := by
  induction e with
  | number v => rfl
  | identifier other column =>
    rw [substitute, evaluate]
    by_cases hname : other = name
    · rw [if_pos hname, hname]
      exact s.read_change_self name hf hassigned column
    · rw [if_neg hname]
      exact s.read_change_of_ne hf hname column
  | negate e ih => rw [evaluate, substitute, evaluate, ih]
  | binary op left right column ihl ihr => rw [evaluate, substitute, evaluate, ihl, ihr]

/-- a name that is made readable is worth what it holds -/
theorem evaluate_expose (e : Expr) (s : Store) (name : String) :
    e.evaluate (s.expose name) = (e.substitute name (s.content name).1).evaluate s :=
  e.evaluate_change s name (fun _ => rfl) fun _ => rfl

theorem evaluate_assign (e : Expr) (s : Store) (name : String) (v : Int64) :
    e.evaluate (s.assign name v) = (e.substitute name v).evaluate s :=
  e.evaluate_change s name (fun _ => rfl) fun _ => rfl

/-- a name that was replaced is not read any more -/
theorem evaluate_substitute_congr {s t : Store} {name : String}
    (h : ∀ other, other ≠ name → ∀ column, s.read other column = t.read other column) (e : Expr) (v : Int64) :
    (e.substitute name v).evaluate s = (e.substitute name v).evaluate t := by
  induction e with
  | number w => rfl
  | identifier other column =>
    rw [substitute]
    by_cases hname : other = name
    · rw [if_pos hname]
      rfl
    · rw [if_neg hname]
      exact h other hname column
  | negate e ih => rw [substitute, evaluate, evaluate, ih]
  | binary op left right column ihl ihr => rw [substitute, evaluate, evaluate, ihl, ihr]

/-- **A name with a value might as well be that value.** After `name` was given the value `v`, an expression comes to
what it comes to on the store as it was, with the number `v` in the place of the name: to the same value, or to the same
diagnostic. So what the name held before does not show, nor whether it was readable or there at all: on stores that read
the other names alike, the expression comes to the same. And of two values given in a row, only the last one is left. -/
theorem evaluate_bound (e : Expr) (name : String) (v : Int64) (s : Store) :
    e.evaluate (s.assign name v) = (e.substitute name v).evaluate s ∧
      (∀ t : Store, (∀ other, other ≠ name → ∀ column, s.read other column = t.read other column) →
        e.evaluate (s.assign name v) = e.evaluate (t.assign name v)) ∧
      ∀ w, (s.assign name w).assign name v = s.assign name v := by
  refine ⟨e.evaluate_assign s name v, fun t h => ?_, fun w => s.assign_assign name w v⟩
  calc e.evaluate (s.assign name v)
      = (e.substitute name v).evaluate s := e.evaluate_assign s name v
    _ = (e.substitute name v).evaluate t := evaluate_substitute_congr h e v
    _ = e.evaluate (t.assign name v) := (e.evaluate_assign t name v).symm

/-- `y / (i - y)` with `i` bound to the value of `y`, where `i` held another value, and where it was only scanned -/
theorem evaluate_bound_division_by_zero :
    let before := Store.empty.assign "y" 3
    let s := before.assign "i" 7
    let t := before.declare "i" 6
    let e := binary .divide (identifier "y" 1) (binary .subtract (identifier "i" 6) (identifier "y" 10) 8) 3
    (∀ other, other ≠ "i" → ∀ column, s.read other column = t.read other column) ∧
      e.evaluate (s.assign "i" 3) = .error (.divisionByZero 3) ∧
      e.evaluate (s.assign "i" 3) = e.evaluate (t.assign "i" 3) ∧
      e.evaluate t = .error (.unassigned "i" 6) := by
  intro before s t e
  have hreads : ∀ other, other ≠ "i" → ∀ column, s.read other column = t.read other column := by
    intro other hother column
    calc s.read other column
        = before.read other column := before.read_change_of_ne (by intro; rfl) hother column
      _ = t.read other column := (before.read_change_of_ne (by intro; rfl) hother column).symm
  obtain ⟨hsubstitute, hbefore, -⟩ := evaluate_bound e "i" 3 s
  exact ⟨hreads, hsubstitute.trans (by decide), hbefore t hreads, by decide⟩

end Expr

end LineCalc
