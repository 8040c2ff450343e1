/-
Which lines have a value: a line is refused for its spelling if and only if it is no statement of the grammar.

Nothing but a statement is read off the front of a line (`leading_sound`). A statement holds no `eof`, so what is read
off before the one at the end is the whole line (`eq_of_append_eof`), and a line with a value is a statement
(`isStatement_of_run`). The other way round, the value of a statement may still be missing, but only for a fault of its
values (`fault_of_run`).

Result:
- `run_recognises`: both directions, for every store.
-/
import LineCalc.Proofs.Computing

namespace LineCalc

/-! ## What is read is a statement -/

/-- what a summation reads after its target, and what it makes of it -/
theorem Summation.walk_eq_ok {store : Store} {tokens rest : List Token} {s : Summation}
    (h : (walk store).run tokens = .ok (s, rest)) :
    ∃ c₃ c₅ ls us bs lower upper, Derives maxNesting .exp ls lower ∧ Derives maxNesting .exp us upper ∧
      Derives maxNesting .exp bs s.body ∧ lower.evaluate store = .ok s.lower ∧ upper.evaluate store = .ok s.upper ∧
      tokens = ⟨.keyword .bounds, c₃⟩ ::
        (ls ++ ⟨.symbol .ellipsis, s.column⟩ :: (us ++ ⟨.keyword .body, c₅⟩ :: (bs ++ rest))) := by
  obtain ⟨_, _, hover, h⟩ := Walk.run_bind_eq_ok h
  obtain ⟨lo, _, hlower, h⟩ := Walk.run_bind_eq_ok h
  obtain ⟨dots, _, hdots, h⟩ := Walk.run_bind_eq_ok h
  obtain ⟨hi, _, hupper, h⟩ := Walk.run_bind_eq_ok h
  obtain ⟨_, _, hin, h⟩ := Walk.run_bind_eq_ok h
  obtain ⟨body, _, hbody, h⟩ := Walk.run_bind_eq_ok h
  cases h
  obtain ⟨c₃, rfl⟩ := Walk.run_expect_eq_ok (by simp) hover
  obtain ⟨ls, lower, rfl, hl, hlo⟩ := Walk.expression_value_eq_ok hlower
  obtain ⟨c₄, rfl⟩ := Walk.run_expect_eq_ok (by simp) hdots
  rw [Walk.run_expect_cons] at hdots
  cases hdots
  obtain ⟨us, upper, rfl, hu, hhi⟩ := Walk.expression_value_eq_ok hupper
  obtain ⟨c₅, rfl⟩ := Walk.run_expect_eq_ok (by simp) hin
  obtain ⟨bs, rfl, hb⟩ := Walk.expression_tree_sound hbody
  exact ⟨c₃, c₅, ls, us, bs, lower, upper, hl, hu, hb, hlo, hhi, rfl⟩

namespace Statement

theorem target_sound {tokens rest : List Token} {name : String} (h : target.run tokens = .ok (name, rest)) :
    ∃ column, tokens = ⟨.identifier name, column⟩ :: rest := by
  rw [target, Walk.run_peek_bind] at h
  split at h
  next found hfound =>
    obtain ⟨column, tail, rfl⟩ := exists_cons_of_terminal hfound (by simp)
    cases h
    exact ⟨column, rfl⟩
  next => cases h

theorem expression_sound {tokens rest : List Token} {store : Store} {v : Int64}
    (h : (expression tokens store).1 = .ok (v, rest)) : ∃ ts, tokens = ts ++ rest ∧ IsStatement ts := by
  obtain ⟨ts, e, rfl, ht⟩ := Walk.expression_value_sound h
  exact ⟨ts, rfl, .expression ht⟩

theorem assignment_sound {name : String} {tokens rest : List Token} {store : Store} {v : Int64}
    (h : (assignment name tokens store).1 = .ok (v, rest)) :
    ∃ ts e, tokens = ts ++ rest ∧ Derives maxNesting .exp ts e := by
  unfold assignment at h
  dsimp only at h
  split at h
  next w after hvalue =>
    cases h
    exact Walk.expression_value_sound hvalue
  next => cases h

theorem summation_sound {tokens rest : List Token} {store : Store} {v : Int64} (c₁ : Nat)
    (h : (summation tokens store).1 = .ok (v, rest)) :
    ∃ ts, ⟨.keyword .sum, c₁⟩ :: tokens = ts ++ rest ∧ IsStatement ts := by
  unfold summation at h
  split at h
  next => cases h
  next name after htarget =>
    obtain ⟨c₂, rfl⟩ := target_sound htarget
    dsimp only at h
    split at h
    next => cases h
    next s after' hwalk =>
      obtain ⟨c₃, c₅, ls, us, bs, lower, upper, hl, hu, hb, -, -, rfl⟩ := Summation.walk_eq_ok hwalk
      have hrest : after' = rest := by
        cases htotal : (s.run name (store.expose name)).1 with
        | error d => rw [htotal] at h; cases h
        | ok total => rw [htotal] at h; cases h; rfl
      subst hrest
      exact ⟨_, by simp, @IsStatement.summation name c₁ c₂ c₃ s.column c₅ ls us bs lower upper s.body hl hu hb⟩

theorem leading_sound {tokens rest : List Token} {store : Store} {v : Int64}
    (h : (leading tokens store).1 = .ok (v, rest)) : ∃ ts, tokens = ts ++ rest ∧ IsStatement ts := by
  unfold leading at h
  split at h
  next c₁ tail => exact summation_sound c₁ h
  next name c₁ c₂ tail =>
    obtain ⟨ts, e, rfl, ht⟩ := assignment_sound h
    exact ⟨_, rfl, @IsStatement.assignment name c₁ c₂ ts e ht⟩
  next => exact expression_sound h

end Statement

/-! ## The end of the line -/

theorem Terminal.InExpression.ne_eof {t : Terminal} (h : t.InExpression) : t ≠ .eof := by
  rintro rfl; exact h

theorem Derives.ne_eof {room : Nat} {p : Phrase} {ts : List Token} {e : Expr} (h : Derives room p ts e) :
    ∀ t ∈ ts, t.terminal ≠ .eof :=
  fun t ht => (h.inExpression t ht).ne_eof

theorem IsStatement.ne_eof {ts : List Token} (h : IsStatement ts) : ∀ t ∈ ts, t.terminal ≠ .eof := by
  cases h with
  | expression h => exact h.ne_eof
  | assignment h =>
    intro t ht
    rcases List.mem_cons.1 ht with rfl | ht
    · simp
    rcases List.mem_cons.1 ht with rfl | ht
    · simp
    exact h.ne_eof t ht
  | summation hl hu hb =>
    intro t ht
    simp only [List.mem_cons, List.mem_append] at ht
    rcases ht with rfl | rfl | rfl | ht | rfl | ht | rfl | ht
    · simp
    · simp
    · simp
    · exact hl.ne_eof t ht
    · simp
    · exact hu.ne_eof t ht
    · simp
    · exact hb.ne_eof t ht

/-- a line has one `eof`: what stands before an `eof` is all that stands before the end -/
theorem eq_of_append_eof {ts us rest : List Token} {column : Nat} (hts : ∀ t ∈ ts, t.terminal ≠ .eof)
    (hus : ∀ t ∈ us, t.terminal ≠ .eof) (h : ts ++ [⟨.eof, column⟩] = us ++ rest)
    (hrest : (current rest).terminal = .eof) : us = ts := by
  induction ts generalizing us with
  | nil =>
    cases us with
    | nil => rfl
    | cons u us =>
      have hu : (⟨.eof, column⟩ : Token) = u := (List.cons.inj h).1
      exact absurd (by rw [← hu]) (hus u List.mem_cons_self)
  | cons t ts ih =>
    cases us with
    | nil =>
      have hcurrent : (t :: ts) ++ [⟨.eof, column⟩] = rest := h
      rw [← hcurrent] at hrest
      exact absurd hrest (hts t List.mem_cons_self)
    | cons u us =>
      obtain ⟨rfl, htail⟩ := List.cons.inj h
      rw [ih (fun t ht => hts t (List.mem_cons_of_mem _ ht)) (fun t ht => hus t (List.mem_cons_of_mem _ ht)) htail]

theorem Statement.eof_of_conclude {v w : Int64} {rest : List Token} (h : conclude v rest = .ok w) :
    (current rest).terminal = .eof := by
  unfold conclude at h
  dsimp only at h
  split at h
  next heof => exact heof
  next => cases h
  next => cases h

/-! ## What a statement is refused for -/

theorem Summation.semantic_of_accumulate {name : String} {body : Expr} {count : Nat} {index total : Int64}
    {store : Store} {d : Diagnostic} (h : (accumulate name body count index total store).1 = .error d) :
    d.fault.Semantic := by
  induction count generalizing index total store with
  | zero => cases h
  | succ count ih =>
    unfold accumulate at h
    dsimp only at h
    split at h
    next => exact ih h
    next hbody => cases h; exact Expr.semantic_of_evaluate hbody

theorem Summation.fault_of_run {s : Summation} {name : String} {store : Store} {d : Diagnostic}
    (h : (s.run name store).1 = .error d) : d.fault.Semantic ∨ d.fault = .rangeTooLarge := by
  unfold run at h
  split at h
  next => cases h; exact Or.inr rfl
  next => exact Or.inl (semantic_of_accumulate h)

namespace Statement

theorem isStatement_of_run {ts : List Token} {column : Nat} {store : Store} {v : Int64}
    (hts : ∀ t ∈ ts, t.terminal ≠ .eof) (h : (run (ts ++ [⟨.eof, column⟩]) store).1 = .ok v) : IsStatement ts := by
  obtain ⟨w, rest, hleading, hconclude⟩ := run_eq_ok h
  obtain ⟨us, hus, hu⟩ := leading_sound hleading
  rwa [← eq_of_append_eof hts hu.ne_eof hus (eof_of_conclude hconclude)]

theorem fault_of_run {ts : List Token} {column : Nat} {store : Store} {d : Diagnostic} (hts : IsStatement ts)
    (h : (run (ts ++ [⟨.eof, column⟩]) store).1 = .error d) : d.fault.Semantic ∨ d.fault = .rangeTooLarge := by
  cases hts with
  | expression ht =>
    rw [run_expression ht] at h
    exact Or.inl (Expr.semantic_of_evaluate h)
  | @assignment name c₁ c₂ ts e ht =>
    have hrun := run_assignment ht name c₁ c₂ column store
    rw [List.cons_append, List.cons_append, hrun] at h
    split at h
    next => cases h
    next he => cases h; exact Or.inl (Expr.semantic_of_evaluate he)
  | @summation name c₁ c₂ c₃ c₄ c₅ ls us bs lower upper body hl hu hb =>
    have hrun := run_summation hl hu hb name c₁ c₂ c₃ c₄ c₅ column store
    simp only [List.cons_append, List.append_assoc] at h
    rw [hrun] at h
    split at h
    next he => cases h; exact Or.inl (Expr.semantic_of_evaluate he)
    next =>
      split at h
      next he => cases h; exact Or.inl (Expr.semantic_of_evaluate he)
      next => exact Summation.fault_of_run h

/-! ## Main result -/

/-- **A line is refused for its spelling if and only if it is no statement.** Whatever the store holds, a line that is
no statement has no value, and a line that is one has a value, or fails because of its values: by a division or a
remainder by zero, by reading a name that has no value, or by the range of a summation. -/
theorem run_recognises (ts : List Token) (hts : ∀ t ∈ ts, t.terminal ≠ .eof) (column : Nat) (store : Store) :
    let result := (run (ts ++ [⟨.eof, column⟩]) store).1
    (¬ IsStatement ts → ∃ d, result = .error d) ∧
      (IsStatement ts →
        (∃ v, result = .ok v) ∨ ∃ d, result = .error d ∧ (d.fault.Semantic ∨ d.fault = .rangeTooLarge)) := by
  intro result
  cases hresult : result with
  | ok v => exact ⟨fun hnot => absurd (isStatement_of_run hts hresult) hnot, fun _ => Or.inl ⟨v, rfl⟩⟩
  | error d => exact ⟨fun _ => ⟨d, rfl⟩, fun h => Or.inr ⟨d, rfl, fault_of_run h hresult⟩⟩

/-- `1)`, `x` with nothing in it, and `x` with 3 in it -/
theorem run_recognises_instances :
    (∃ d, (run [⟨.number 1, 1⟩, ⟨.symbol .closeParen, 2⟩, ⟨.eof, 3⟩] Store.empty).1 = .error d) ∧
      (∃ d, (run [⟨.identifier "x", 1⟩, ⟨.eof, 2⟩] Store.empty).1 = .error d ∧
        (d.fault.Semantic ∨ d.fault = .rangeTooLarge)) ∧
      ∃ v, (run [⟨.identifier "x", 1⟩, ⟨.eof, 2⟩] (Store.empty.assign "x" 3)).1 = .ok v := by
  have hno : ¬ IsStatement [⟨.number 1, 1⟩, ⟨.symbol .closeParen, 2⟩] := fun h => by
    have hrun : (run ([⟨.number 1, 1⟩, ⟨.symbol .closeParen, 2⟩] ++ [⟨.eof, 3⟩]) Store.empty).1 =
        .error (.unmatched .opening 2) := by
      show ((Walk.expression (.value Store.empty)).run ([⟨.number 1, 1⟩] ++ _)).bind _ = _
      rw [Walk.expression_value (.ofNumber maxNesting 1 1) _ (stops_of_strength rfl _)]
      rfl
    rcases fault_of_run h hrun with hfault | hfault <;> cases hfault
  have hyes : IsStatement [⟨.identifier "x", 1⟩] := .expression (.ofIdentifier maxNesting "x" 1)
  refine ⟨(run_recognises _ (by simp) 3 Store.empty).1 hno, ?_, ?_⟩
  · rcases (run_recognises _ (by simp) 2 Store.empty).2 hyes with ⟨v, hv⟩ | hd
    · rw [run_expression (.ofIdentifier maxNesting "x" 1)] at hv
      cases hv
    · exact hd
  · rcases (run_recognises _ (by simp) 2 (Store.empty.assign "x" 3)).2 hyes with hv | ⟨d, hd, -⟩
    · exact hv
    · rw [run_expression (.ofIdentifier maxNesting "x" 1)] at hd
      cases hd

end Statement

end LineCalc
