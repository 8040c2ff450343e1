/-
What a malformed line leaves behind: every value that could be read, but for what a statement that was read to its end
has already stored.

A line is malformed if it is refused while it is scanned or parsed. The names of a line that is scanned are noted before
it is parsed, which hides no value (`Store.Retained.of_noteAll`). Where the refusal comes from inside the statement, the
store is left at that, up to a target that has become readable with the value it had (`leading_refused`). A statement
that is read to its end, though, has stored its values before what follows is looked at. That the line goes on makes no
difference to it: it comes to the same value and the same store as it would alone, with the names of the whole line noted
(`leading_alone`).

Result:
- `evaluate_malformed`: a malformed line keeps every readable value, or it is an assignment or a summation with
  something left over, for which it leaves what the statement leaves. `malformed_line_stores` shows that this happens.
-/
import LineCalc.Proofs.Readability

namespace LineCalc

/-! ## Values that are kept -/

namespace Store

theorem value?_eq_some_iff {s : Store} {name : String} {v : Int64} :
    s.value? name = some v ↔ s.content name = (v, true) := by
  rw [value?_eq, Prod.ext_iff]
  cases (s.content name).2 <;> simp

/-- making a name readable leaves all values that are readable already -/
theorem value?_expose {s : Store} {name : String} {v : Int64} (h : s.value? name = some v) (target : String) :
    (s.expose target).value? name = some v := by
  rw [value?_eq_some_iff] at h ⊢
  rw [expose]
  by_cases hname : name = target
  · subst hname
    rw [content_change_self]
    · have hstored : (s.content name).1 = v := congrArg Prod.fst h
      exact Prod.ext hstored rfl
    · exact fun _ => rfl
  · rw [content_change_of_ne s _ hname]
    · exact h
    · exact fun _ => rfl

/-- every value that could be read `before` can be read `after`, but for that of `name?` -/
def Retained (name? : Option String) (before after : Store) : Prop :=
  ∀ name v, name? ≠ some name → before.value? name = some v → after.value? name = some v

theorem Retained.refl (s : Store) : s.Retained none s := fun _ _ _ hv => hv

theorem retained_expose (s : Store) (target : String) : s.Retained none (s.expose target) :=
  fun _ _ _ hv => value?_expose hv target

theorem retained_noteAll (s : Store) (ts : List Token) : s.Retained none (s.noteAll ts) := by
  intro name v _ hv
  rwa [value?_eq, content_noteAll, ← value?_eq]

/-- noting the names of a line hides nothing -/
theorem Retained.of_noteAll {name? : Option String} {s after : Store} {ts : List Token}
    (h : (s.noteAll ts).Retained name? after) : s.Retained name? after := by
  intro name v hname hv
  exact h name v hname (s.retained_noteAll ts name v nofun hv)

theorem Touched.retained {name? : Option String} {before after : Store} (h : before.Touched name? after) :
    before.Retained name? after := by
  intro name v hname hv
  rwa [value?, h.find?_of_ne hname]

end Store

/-! ## Statements that are complete -/

namespace Statement

variable {tokens rest : List Token} {store : Store} {v : Int64}

theorem expression_alone (h : (expression tokens store).1 = .ok (v, rest)) (column : Nat) :
    ∃ us, tokens = us ++ rest ∧ IsStatement us ∧ run (us ++ [⟨.eof, column⟩]) store = (.ok v, store) := by
  obtain ⟨ts, e, rfl, he, hev⟩ := Walk.expression_value_eq_ok h
  refine ⟨ts, rfl, .expression he, ?_⟩
  rw [run_expression he, hev]

theorem assignment_alone {name : String} (h : (assignment name tokens store).1 = .ok (v, rest)) (c₁ c₂ column : Nat) :
    ∃ us, ⟨.identifier name, c₁⟩ :: ⟨.symbol .equals, c₂⟩ :: tokens = us ++ rest ∧ IsStatement us ∧
      run (us ++ [⟨.eof, column⟩]) store = (.ok v, (assignment name tokens store).2) := by
  unfold assignment at h ⊢
  dsimp only at h ⊢
  cases hvalue : (Walk.expression (.value (store.expose name))).run tokens with
  | error d => rw [hvalue] at h; cases h
  | ok r =>
    rw [hvalue] at h
    cases h
    obtain ⟨ts, e, rfl, he, hev⟩ := Walk.expression_value_eq_ok hvalue
    have hrun := run_assignment he name c₁ c₂ column store
    rw [hev] at hrun
    exact ⟨_, rfl, .assignment he, hrun⟩

theorem summation_alone (h : (summation tokens store).1 = .ok (v, rest)) (c₁ column : Nat) :
    ∃ us, ⟨.keyword .sum, c₁⟩ :: tokens = us ++ rest ∧ IsStatement us ∧
      run (us ++ [⟨.eof, column⟩]) store = (.ok v, (summation tokens store).2) := by
  rcases summation_cases tokens store with ⟨d, hd, -⟩ | ⟨name, c₂, tail, rfl, ⟨d, hwalk⟩ | ⟨s, after, hwalk⟩⟩
  · rw [hd] at h
    cases h
  · rw [summation_of_walk_error hwalk] at h
    cases h
  · rw [summation_of_walk_ok hwalk] at h ⊢
    obtain ⟨c₃, c₅, ls, us, bs, lower, upper, hl, hu, hb, hlo, hhi, rfl⟩ := Summation.walk_eq_ok hwalk
    have hrun := run_summation hl hu hb name c₁ c₂ c₃ s.column c₅ column store
    rw [hlo, hhi] at hrun
    cases htotal : (s.run name (store.expose name)).1 with
    | error d => rw [htotal] at h; cases h
    | ok total =>
      rw [htotal] at h
      cases h
      refine ⟨_, by simp, @IsStatement.summation name c₁ c₂ c₃ s.column c₅ ls us bs lower upper s.body hl hu hb, ?_⟩
      rw [← htotal]
      simpa using hrun

/-- **What follows a statement makes no difference to it**: it comes to the same value and the same store alone. -/
theorem leading_alone (h : (leading tokens store).1 = .ok (v, rest)) (column : Nat) :
    ∃ us, tokens = us ++ rest ∧ IsStatement us ∧
      run (us ++ [⟨.eof, column⟩]) store = (.ok v, (leading tokens store).2) := by
  unfold leading at h ⊢
  split at h
  next c₁ tail => exact summation_alone h c₁ column
  next name c₁ c₂ tail => exact assignment_alone h c₁ c₂ column
  next => exact expression_alone h column

/-! ## Statements that are refused -/

/-- a statement that is refused for its spelling has made its target readable at most -/
theorem leading_refused {d : Diagnostic} (h : (leading tokens store).1 = .error d) (hstage : d.fault.stage ≠ .computing) :
    (leading tokens store).2 = store ∨ ∃ name, (leading tokens store).2 = store.expose name := by
  unfold leading at h ⊢
  split at h
  next c₁ tail =>
    rcases summation_cases tail store with ⟨raised, hd, -⟩ | ⟨name, c₂, tail, rfl, ⟨raised, hwalk⟩ | ⟨s, after, hwalk⟩⟩
    · exact Or.inl (by rw [hd])
    · exact Or.inr ⟨name, by rw [summation_of_walk_error hwalk]⟩
    · rw [summation_of_walk_ok hwalk] at h
      cases htotal : (s.run name (store.expose name)).1 with
      | ok total => rw [htotal] at h; cases h
      | error raised =>
        rw [htotal] at h
        cases h
        rcases Summation.fault_of_run htotal with hfault | hfault
        · exact absurd hfault.stage hstage
        · exact absurd (by rw [hfault]; rfl) hstage
  next name c₁ c₂ tail =>
    unfold assignment at h ⊢
    dsimp only at h ⊢
    split at h
    next => cases h
    next => exact Or.inr ⟨name, rfl⟩
  next => exact Or.inl rfl

/-- what is left over is blamed at its first token -/
theorem leftover_of_conclude {d : Diagnostic} (h : conclude v rest = .error d) :
    ∃ t more, rest = t :: more ∧ d.column = t.column ∧
      (d.fault = .trailingTokens ∨ d.fault = .unmatched .opening) := by
  unfold conclude at h
  dsimp only at h
  split at h
  next => cases h
  next hclose =>
    cases h
    obtain ⟨column, more, rfl⟩ := exists_cons_of_terminal hclose (by simp)
    exact ⟨_, more, rfl, rfl, Or.inr rfl⟩
  next heof _ =>
    cases h
    cases rest with
    | nil => exact absurd rfl heof
    | cons t more => exact ⟨t, more, rfl, rfl, Or.inl rfl⟩

/-- a line that is refused for its spelling keeps every readable value, or has something left over behind an
assignment or a summation -/
theorem run_refused {d : Diagnostic} (h : (run tokens store).1 = .error d) (hstage : d.fault.stage ≠ .computing) :
    store.Retained none (run tokens store).2 ∨
      ∃ us t more target w, tokens = us ++ t :: more ∧ IsStatement us ∧ target? us = some target ∧
        d.column = t.column ∧ (d.fault = .trailingTokens ∨ d.fault = .unmatched .opening) ∧
        run (us ++ [⟨.eof, t.column⟩]) store = (.ok w, (run tokens store).2) ∧
        store.Retained (some target) (run tokens store).2 := by
  have hleft : (run tokens store).2 = (leading tokens store).2 := rfl
  rw [run_fst] at h
  rw [hleft]
  cases hleading : (leading tokens store).1 with
  | error raised =>
    left
    rw [hleading] at h
    cases h
    rcases leading_refused hleading hstage with hsame | ⟨target, hexposed⟩
    · rw [hsame]
      exact .refl store
    · rw [hexposed]
      exact store.retained_expose target
  | ok r =>
    obtain ⟨w, rest⟩ := r
    rw [hleading] at h
    obtain ⟨t, more, rfl, hcolumn, hfault⟩ := leftover_of_conclude h
    obtain ⟨us, rfl, hus, hrun⟩ := leading_alone hleading t.column
    have htouched := run_touched (us ++ [⟨.eof, t.column⟩]) store
    rw [hrun, target?_append_eof] at htouched
    cases htarget : target? us with
    | none =>
      left
      rw [htarget] at htouched
      exact htouched.retained
    | some target =>
      right
      rw [htarget] at htouched
      exact ⟨us, t, more, target, w, rfl, hus, htarget, hcolumn, hfault, hrun, htouched.retained⟩

end Statement

/-! ## Lines -/

namespace Session

/-- **A malformed line keeps every value that may be read, or something is left over behind a statement.** One of these
holds of a line that is refused while it is scanned or parsed.
- Every value that could be read before can be read after it.
- Its tokens begin with those of an assignment or a summation and go on with another token, which is blamed as left over
  or as a `)` without a `(`. The store is the one that the statement alone, with its end in the place of this token, comes
  to a value and leaves, where it starts from the store in which the names of the whole line have been noted. Every value
  that could be read before can be read after it, but for that of its target.

That a statement stands at the front of a line does not decide between them: after `x = 5`, the line `x = 1 +` begins
with `x = 1` and still keeps the 5. -/
theorem evaluate_malformed {s : Session} {line : String} {d : Diagnostic} (h : (s.evaluate line).1 = .error d)
    (hstage : d.fault.stage ≠ .computing) :
    let left := (s.evaluate line).2.store
    s.store.Retained none left ∨
      ∃ us t more target w, tokensOf line = us ++ t :: more ∧ IsStatement us ∧
        Statement.target? us = some target ∧ d.column = t.column ∧
        (d.fault = .trailingTokens ∨ d.fault = .unmatched .opening) ∧
        Statement.run (us ++ [⟨.eof, t.column⟩]) (s.store.noteAll (tokensOf line)) = (.ok w, left) ∧
        s.store.Retained (some target) left := by
  intro left
  have hrefused : Refused s line d left := refused_of_evaluate h
  clear_value left
  cases hrefused with
  | long => exact Or.inl (.refl s.store)
  | illegal => exact Or.inl (s.store.retained_noteAll _)
  | brief => exact Or.inl (s.store.retained_noteAll _)
  | statement hrun =>
    rcases Statement.run_refused hrun hstage with
      hall | ⟨us, t, more, target, w, hline, hus, htarget, hcolumn, hfault, halone, hall⟩
    · exact Or.inl hall.of_noteAll
    · exact Or.inr ⟨us, t, more, target, w, hline, hus, htarget, hcolumn, hfault, halone, hall.of_noteAll⟩

/-- `x = 1 2` after `x = 5`: the `2` is left over, and the line leaves what `x = 1` leaves -/
theorem evaluate_malformed_assignment :
    let s := after defaultLimit ["x = 5"]
    (s.evaluate "x = 1 2").1 = .error (.trailingTokens 7) ∧
      ∃ us t more target w, tokensOf "x = 1 2" = us ++ t :: more ∧ Statement.target? us = some target ∧
        Statement.run (us ++ [⟨.eof, t.column⟩]) (s.store.noteAll (tokensOf "x = 1 2")) =
          (.ok w, (s.evaluate "x = 1 2").2.store) := by
  intro s
  have hrun : (s.evaluate "x = 1 2").1 = .error (.trailingTokens 7) := by decide +kernel
  refine ⟨hrun, ?_⟩
  rcases evaluate_malformed hrun (by decide) with
    hall | ⟨us, t, more, target, w, hline, -, htarget, -, -, halone, -⟩
  · have hx := hall "x" 5 nofun (by decide +kernel)
    exact absurd hx (by decide +kernel)
  · exact ⟨us, t, more, target, w, hline, htarget, halone⟩

/-- a malformed line may store a value: `x = 1 2` is refused for its `2`, and has replaced the 5 that `x` held -/
theorem malformed_line_stores :
    ¬ ∀ (limit : Nat) (history : List String) (line : String) (d : Diagnostic) (name : String) (v : Int64),
      ((after limit history).evaluate line).1 = .error d → d.fault.stage ≠ .computing →
        (after limit history).store.value? name = some v →
          ((after limit history).evaluate line).2.store.value? name = some v := by
  intro hclaim
  have hkept := hclaim defaultLimit ["x = 5"] "x = 1 2" (.trailingTokens 7) "x" 5 (by decide +kernel) (by decide)
    (by decide +kernel)
  exact absurd hkept (by decide +kernel)

end Session

end LineCalc
