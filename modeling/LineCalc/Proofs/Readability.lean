/-
When a name may be read: from the first line on that makes it a target, and not before.

A line makes `name` its target if it is short enough to be scanned, holds nothing illegal and begins with `name =` or
`sum name` (`Targets`). What else the line says does not matter, because a target becomes readable before the rest is
computed, and no line ever hides a name again (`Touched.readable`). So one line adds its target to the readable names
and nothing else (`readable_evaluate_iff`).

A line that is refused because a name has no value leaves that name unreadable (`unreadable_of_run`). The store it is
refused on is the one it leaves, and the name was noted on this line (`lastColumn?_of_read`).

Result:
- `readable_iff_targeted`: the readable names of a session, told from the lines it has seen, and what follows from it
  for a diagnostic about a name without a value.
-/
import LineCalc.Proofs.Pointing
import LineCalc.Proofs.Isolation

namespace LineCalc

/-! ## Readable names -/

namespace Store

theorem isSome_value? (s : Store) (name : String) : (s.value? name).isSome = (s.content name).2 := by
  rw [value?_eq]
  cases (s.content name).2 <;> rfl

theorem content_change_self (s : Store) (name : String) {f : Slot → Slot} (hf : ∀ slot, (f slot).name = slot.name) :
    (s.change name f).content name =
      ((f ((s.find? name).getD (Slot.fresh name))).stored, (f ((s.find? name).getD (Slot.fresh name))).assigned) := by
  rw [content, find?_change_self s name f hf]
  rfl

theorem content_change_of_ne (s : Store) {name other : String} {f : Slot → Slot}
    (hf : ∀ slot, (f slot).name = slot.name) (h : other ≠ name) : (s.change name f).content other = s.content other := by
  rw [content, find?_change_of_ne s f hf h]
  rfl

theorem readable_expose (s : Store) (name : String) : ((s.expose name).content name).2 = true := by
  rw [expose, content_change_self]
  intro slot
  rfl

/-- what is readable stays so -/
theorem Touched.readable {name? : Option String} {before after : Store} (h : before.Touched name? after) {name : String}
    (hname : (before.content name).2 = true) : (after.content name).2 = true := by
  cases h with
  | unchanged => exact hname
  | @changed target f _ hf _ hassigned =>
    by_cases htarget : name = target
    · subst htarget
      rw [content_change_self before name hf]
      exact hassigned _
    · rw [content_change_of_ne before hf htarget]
      exact hname

/-- reading fails on a name that is not readable, and names it -/
theorem unreadable_of_read {s : Store} {name : String} {column : Nat} {d : Diagnostic}
    (h : s.read name column = .error d) : (s.content name).2 = false ∧ d.fault = .unassigned name := by
  unfold read at h
  rw [content]
  split at h
  next hnone =>
    cases h
    rw [hnone]
    exact ⟨rfl, rfl⟩
  next slot hslot =>
    rw [hslot]
    split at h
    next hvalue =>
      cases h
      refine ⟨?_, rfl⟩
      cases hassigned : slot.assigned with
      | false => exact hassigned
      | true => rw [Slot.value?, hassigned] at hvalue; cases hvalue
    next => cases h

end Store

/-! ## Targets become readable -/

namespace Statement

theorem assignment_readable (name : String) (tokens : List Token) (store : Store) :
    ((assignment name tokens store).2.content name).2 = true := by
  have hexpose := store.readable_expose name
  unfold assignment
  dsimp only
  split
  next v _ _ => exact (Store.Touched.assign _ name v).readable hexpose
  next => exact hexpose

theorem summation_readable (name : String) (column : Nat) (tokens : List Token) (store : Store) :
    ((summation (⟨.identifier name, column⟩ :: tokens) store).2.content name).2 = true := by
  have hexpose := store.readable_expose name
  rw [summation, target_of_identifier]
  dsimp only
  split
  next => exact hexpose
  next s _ _ => exact (s.run_touched name _).readable hexpose

/-- the target of a line begins it, or follows the `sum` that does -/
theorem eq_cons_of_target? {tokens : List Token} {name : String} (h : target? tokens = some name) :
    (∃ c₁ c₂ rest, tokens = ⟨.identifier name, c₁⟩ :: ⟨.symbol .equals, c₂⟩ :: rest) ∨
      ∃ c₁ c₂ rest, tokens = ⟨.keyword .sum, c₁⟩ :: ⟨.identifier name, c₂⟩ :: rest := by
  unfold target? at h
  split at h
  next hfirst hsecond =>
    cases h
    obtain ⟨c₁, tail, rfl⟩ := exists_cons_of_terminal hfirst (by simp)
    obtain ⟨c₂, rest, rfl⟩ := exists_cons_of_terminal hsecond (by simp)
    exact Or.inl ⟨c₁, c₂, rest, rfl⟩
  next hfirst hsecond =>
    cases h
    obtain ⟨c₁, tail, rfl⟩ := exists_cons_of_terminal hfirst (by simp)
    obtain ⟨c₂, rest, rfl⟩ := exists_cons_of_terminal hsecond (by simp)
    exact Or.inr ⟨c₁, c₂, rest, rfl⟩
  next => cases h

end Statement

namespace Session

theorem dispatch_readable {tokens : List Token} {name : String} (h : Statement.target? tokens = some name)
    (store : Store) : ((dispatch tokens store).2.content name).2 = true := by
  rcases Statement.eq_cons_of_target? h with ⟨c₁, c₂, rest, rfl⟩ | ⟨c₁, c₂, rest, rfl⟩
  · exact Statement.assignment_readable name rest store
  · exact Statement.summation_readable name c₂ rest store

end Session

/-! ## Names without a value -/

/-- an operation never complains about a name -/
theorem Operator.fault_ne_unassigned {op : Operator} {l r : Int64} {column : Nat} {d : Diagnostic}
    (h : op.apply l r column = .error d) (name : String) : d.fault ≠ .unassigned name := by
  intro hd
  have hsymbol := (concerns_of_apply h).2
  rw [hd] at hsymbol
  cases hsymbol

/-- an expression that complains about a name was evaluated on a store in which the name is not readable -/
theorem Expr.unreadable_of_evaluate {store : Store} {e : Expr} {d : Diagnostic} {name : String}
    (h : e.evaluate store = .error d) (hd : d.fault = .unassigned name) : (store.content name).2 = false := by
  rw [← Meaning.interpret_value] at h
  cases Meaning.raises_of_interpret h with
  | @identifier other column _ hread =>
    obtain ⟨hhidden, hother⟩ := Store.unreadable_of_read hread
    rw [hd] at hother
    cases hother
    exact hhidden
  | binary happly => exact absurd hd (Operator.fault_ne_unassigned happly name)

/-- a diagnostic about a name has its cause in a reading of that name -/
theorem Cause.read_of_unassigned {store : Store} {us : List Token} {next : Token} {d : Diagnostic} {name : String}
    (h : Cause store us next d) (hd : d.fault = .unassigned name) :
    ∃ column, ⟨.identifier name, column⟩ ∈ us ∧ store.read name column = .error d := by
  cases h with
  | spelling _ hblames =>
    have hstage := hblames.stage
    rw [hd] at hstage
    cases hstage
  | values hraised =>
    cases hraised with
    | @name other column hmem hread =>
      have hother := (Store.unreadable_of_read hread).2
      rw [hd] at hother
      cases hother
      exact ⟨column, hmem, hread⟩
    | operation _ happly => exact absurd hd (Operator.fault_ne_unassigned happly name)
  | range => cases hd

namespace Walk

variable {α : Type} {store : Store} {ts tokens : List Token} {w : Walk α} {Q : List Token → α → Prop}
  {d : Diagnostic} {name : String}

/-- a walk along a line is refused for a cause on the line -/
theorem Proceeds.cause (hw : Proceeds store ts w tokens Q) (h : w.run tokens = .error d) :
    ∃ us rest, Cause store (ts ++ us) (current rest) d := by
  obtain ⟨us, rest, r, rfl, hyield, hr⟩ := hw
  rw [hyield rest rfl] at h
  cases r with
  | ok a => cases h
  | error raised => cases h; exact ⟨us, rest, hr⟩

theorem Proceeds.unreadable (hw : Proceeds store ts w tokens Q) (h : w.run tokens = .error d)
    (hd : d.fault = .unassigned name) : (store.content name).2 = false := by
  obtain ⟨us, rest, hcause⟩ := hw.cause h
  obtain ⟨column, -, hread⟩ := hcause.read_of_unassigned hd
  exact (Store.unreadable_of_read hread).1

theorem expression_unreadable (h : (expression (.value store)).run tokens = .error d)
    (hd : d.fault = .unassigned name) : (store.content name).2 = false := by
  have hproceeds := @expression_value_proceeds store [] tokens .nil fun he => (IsStatement.expression he).begins
  exact hproceeds.unreadable h hd

end Walk

namespace Summation

variable {store : Store} {d : Diagnostic} {target name : String}

theorem accumulate_unreadable {body : Expr} {count : Nat} {index total : Int64}
    (h : (accumulate target body count index total store).1 = .error d) (hd : d.fault = .unassigned name) :
    ((accumulate target body count index total store).2.content name).2 = false := by
  induction count generalizing index total store with
  | zero => cases h
  | succ count ih =>
    unfold accumulate at h ⊢
    dsimp only at h ⊢
    cases hbody : body.evaluate (store.assign target index) with
    | ok v =>
      rw [hbody] at h
      exact ih h
    | error raised =>
      rw [hbody] at h
      cases h
      exact Expr.unreadable_of_evaluate hbody hd

theorem run_unreadable {s : Summation} (h : (s.run target store).1 = .error d) (hd : d.fault = .unassigned name) :
    ((s.run target store).2.content name).2 = false := by
  unfold run at h ⊢
  by_cases hlarge : s.count > maxIterations
  · rw [if_pos hlarge] at h
    cases h
    cases hd
  · rw [if_neg hlarge] at h ⊢
    exact accumulate_unreadable h hd

end Summation

namespace Statement

variable {tokens : List Token} {store : Store} {d : Diagnostic} {name : String}

theorem assignment_unreadable {target : String} (h : (assignment target tokens store).1 = .error d)
    (hd : d.fault = .unassigned name) : ((assignment target tokens store).2.content name).2 = false := by
  unfold assignment at h ⊢
  dsimp only at h ⊢
  cases hvalue : (Walk.expression (.value (store.expose target))).run tokens with
  | ok r => rw [hvalue] at h; cases h
  | error raised =>
    rw [hvalue] at h
    cases h
    exact Walk.expression_unreadable hvalue hd

theorem summation_unreadable (h : (summation tokens store).1 = .error d) (hd : d.fault = .unassigned name) :
    ((summation tokens store).2.content name).2 = false := by
  rcases summation_cases tokens store with
    ⟨raised, hraised, hstage⟩ | ⟨target, column, rest, rfl, ⟨raised, hwalk⟩ | ⟨s, after, hwalk⟩⟩
  · rw [hraised] at h
    cases h
    rw [hd] at hstage
    cases hstage
  · rw [summation_of_walk_error hwalk] at h ⊢
    cases h
    exact (Summation.walk_proceeds _ target 0 column rest).unreadable hwalk hd
  · rw [summation_of_walk_ok hwalk] at h ⊢
    cases htotal : (s.run target (store.expose target)).1 with
    | ok total => rw [htotal] at h; cases h
    | error raised =>
      rw [htotal] at h
      cases h
      exact Summation.run_unreadable htotal hd

theorem leading_unreadable (h : (leading tokens store).1 = .error d) (hd : d.fault = .unassigned name) :
    ((leading tokens store).2.content name).2 = false := by
  unfold leading at h ⊢
  split at h
  next => exact summation_unreadable h hd
  next => exact assignment_unreadable h hd
  next => exact Walk.expression_unreadable h hd

/-- a line that complains about a name leaves the name unreadable -/
theorem unreadable_of_run (h : (run tokens store).1 = .error d) (hd : d.fault = .unassigned name) :
    ((run tokens store).2.content name).2 = false := by
  show ((leading tokens store).2.content name).2 = false
  rw [run_fst] at h
  cases hleading : (leading tokens store).1 with
  | error raised =>
    rw [hleading] at h
    cases h
    exact leading_unreadable hleading hd
  | ok r =>
    rw [hleading] at h
    rcases conclude_cases r.1 r.2 with ⟨-, hok⟩ | ⟨raised, hraised, hblames⟩
    · cases hok.symm.trans h
    · have hstage := (hblames []).stage
      cases hraised.symm.trans h
      rw [hd] at hstage
      cases hstage

end Statement

/-! ## Lines -/

namespace Session

/-- `line` gives `name` a value or tries to: it is scanned to its end, and `name` is its target -/
structure Targets (limit : Nat) (line name : String) : Prop where
  short : line.utf8ByteSize < limit
  legal : ∀ t ∈ tokensOf line, ∀ c, t.terminal ≠ .illegal c
  target : Statement.target? (tokensOf line) = some name

/-- a line makes its target readable, and no other name -/
theorem readable_evaluate_iff (s : Session) (line name : String) :
    ((s.evaluate line).2.store.content name).2 = true ↔
      (s.store.content name).2 = true ∨ Targets s.limit line name := by
  rcases Nat.lt_or_ge line.utf8ByteSize s.limit with hshort | hlong
  · rw [evaluate_of_short hshort]
    obtain ⟨name?, htouched, htarget⟩ := read_touched line s.store
    constructor
    · intro hafter
      by_cases hname : name? = some name
      · obtain ⟨hlegal, hfirst⟩ := htarget name hname
        rw [target?_scanned hlegal] at hfirst
        exact Or.inr ⟨hshort, legality_eq_ok_iff.1 hlegal, hfirst⟩
      · left
        rw [← htouched.content_noteAll hname]
        exact hafter
    · rintro (hbefore | ⟨-, hlegal, hfirst⟩)
      · rw [← s.store.content_noteAll (scanned (tokensOf line))] at hbefore
        exact htouched.readable hbefore
      · rw [read_eq, legality_eq_ok_iff.2 hlegal]
        exact dispatch_readable hfirst _
  · rw [evaluate_of_long hlong]
    refine ⟨Or.inl, ?_⟩
    rintro (hbefore | htargets)
    · exact hbefore
    · exact absurd htargets.short (Nat.not_lt.2 hlong)

theorem readable_after_iff (limit : Nat) (history : List String) (name : String) :
    ((after limit history).store.content name).2 = true ↔ ∃ line ∈ history, Targets limit line name := by
  induction history using List.reverseRecOn with
  | nil => simp [after, start, Store.empty, Store.content, Store.find?, Slot.fresh]
  | append_singleton history line ih =>
    rw [after_append, readable_evaluate_iff, ih, limit_after]
    simp

/-- a line that complains about a name leaves the name unreadable, and points at its last occurrence -/
theorem unassigned_of_evaluate {s : Session} {line : String} {d : Diagnostic} {name : String}
    (h : (s.evaluate line).1 = .error d) (hd : d.fault = .unassigned name) :
    ((s.evaluate line).2.store.content name).2 = false ∧ lastColumn? name (tokensOf line) = some d.column := by
  have hrefused := refused_of_evaluate h
  generalize (s.evaluate line).2.store = left at hrefused ⊢
  cases hrefused with
  | long => cases hd
  | illegal => cases hd
  | brief hfault =>
    rw [hd] at hfault
    rcases hfault with hfault | hfault <;> cases hfault
  | statement hrun =>
    refine ⟨Statement.unreadable_of_run hrun hd, ?_⟩
    obtain ⟨us, rest, hline, -, hcause⟩ := Statement.run_settled (tokensOf line) (s.store.noteAll (tokensOf line))
    rw [hrun] at hcause
    obtain ⟨column, hmem, hread⟩ := hcause.read_of_unassigned hd
    have hmem : ⟨.identifier name, column⟩ ∈ tokensOf line := by
      rw [hline]
      exact List.mem_append_left _ hmem
    exact (Store.lastColumn?_of_read hmem hread).1

/-- **A name is readable if and only if it was the target of a line**, whether that line had a value or failed: one
that was short enough, held nothing illegal, and began with `name =` or `sum name`. So when a line is refused because a
name has no value, neither a line before it nor this one has the name for its target, and the name stands on this line;
it is pointed at where it stands there last. -/
theorem readable_iff_targeted (limit : Nat) (history : List String) (name : String) :
    (((after limit history).store.value? name).isSome ↔ ∃ line ∈ history, Targets limit line name) ∧
      ∀ line d, ((after limit history).evaluate line).1 = .error d → d.fault = .unassigned name →
        (∀ seen ∈ history ++ [line], ¬ Targets limit seen name) ∧
          lastColumn? name (tokensOf line) = some d.column := by
  refine ⟨?_, ?_⟩
  · rw [Store.isSome_value?]
    exact readable_after_iff limit history name
  · intro line d h hd
    obtain ⟨hhidden, hlast⟩ := unassigned_of_evaluate h hd
    refine ⟨fun seen hseen htargets => ?_, hlast⟩
    have hreadable : ((after limit (history ++ [line])).store.content name).2 = true :=
      (readable_after_iff limit _ name).2 ⟨seen, hseen, htargets⟩
    rw [after_append] at hreadable
    rw [hhidden] at hreadable
    cases hreadable

/-- `x = y` fails and makes `x` readable, not `y`; then `y + x + y` points at the second `y` -/
theorem readable_iff_targeted_failed_assignment :
    let s := after defaultLimit ["x = y"]
    (s.store.value? "x").isSome ∧ (s.evaluate "y + x + y").1 = .error (.unassigned "y" 9) ∧
      lastColumn? "y" (tokensOf "y + x + y") = some 9 ∧ ¬ Targets defaultLimit "x = y" "y" := by
  intro s
  have htargets : Targets defaultLimit "x = y" "x" :=
    ⟨by decide, legality_eq_ok_iff.1 (by decide +kernel), by decide +kernel⟩
  have hx := (readable_iff_targeted defaultLimit ["x = y"] "x").1.2 ⟨_, List.mem_cons_self, htargets⟩
  have hrun : (s.evaluate "y + x + y").1 = .error (.unassigned "y" 9) := by decide +kernel
  obtain ⟨hnone, hlast⟩ := (readable_iff_targeted defaultLimit ["x = y"] "y").2 "y + x + y" _ hrun rfl
  exact ⟨hx, hrun, hlast, hnone _ List.mem_cons_self⟩

end Session

end LineCalc
