/-
What computing makes of the phrases of the grammar: the value of a line and the store it leaves, said by the trees of
its phrases.

Recognition says which tokens recording takes, and Recording what computing makes of the same tokens. Put together,
an expression is computed to what its tree evaluates to (`expression_value`), and only expressions are computed to
anything (`expression_value_sound`).

Results, for whole lines:
- `run_expression`: an expression yields what its tree evaluates to and leaves the store alone;
- `run_assignment`: an assignment evaluates its tree on the store with the target exposed, and stores the value there;
- `run_summation`: a summation evaluates both bounds on the store with the target exposed, and then runs.
-/
import LineCalc.Statement
import LineCalc.Proofs.Recording
import LineCalc.Proofs.Recognition

namespace LineCalc

/-! ## Expressions -/

namespace Walk

theorem expression_value {ts : List Token} {e : Expr} (h : Derives maxNesting .exp ts e) (store : Store)
    {rest : List Token} (hrest : Stops .exp rest) :
    (expression (.value store)).run (ts ++ rest) = (e.evaluate store).map fun v => (v, rest) := by
  have hm := expressionIn_mirrors (.value store) maxNesting (ts ++ rest)
  rw [(expressionIn_reads maxNesting).complete h hrest] at hm
  rw [← Meaning.interpret_value]
  exact hm

theorem expression_tree {ts : List Token} {e : Expr} (h : Derives maxNesting .exp ts e) {rest : List Token}
    (hrest : Stops .exp rest) : (expression .tree).run (ts ++ rest) = .ok (e, rest) :=
  (expressionIn_reads maxNesting).complete h hrest

theorem expression_tree_sound {tokens rest : List Token} {e : Expr}
    (h : (expression .tree).run tokens = .ok (e, rest)) :
    ∃ ts, tokens = ts ++ rest ∧ Derives maxNesting .exp ts e :=
  (expressionIn_reads maxNesting).sound h

/-- only expressions are computed to anything, and to what their trees evaluate to -/
theorem expression_value_eq_ok {store : Store} {tokens rest : List Token} {v : Int64}
    (h : (expression (.value store)).run tokens = .ok (v, rest)) :
    ∃ ts e, tokens = ts ++ rest ∧ Derives maxNesting .exp ts e ∧ e.evaluate store = .ok v := by
  have hm := expressionIn_mirrors (.value store) maxNesting tokens
  rw [show (expressionIn (.value store) maxNesting).run tokens = _ from h] at hm
  cases hr : (expression .tree).run tokens with
  | error s =>
    rw [show (expressionIn .tree maxNesting).run tokens = _ from hr] at hm
    obtain ⟨d, hd, -⟩ := hm
    cases hd
  | ok r =>
    obtain ⟨e, after⟩ := r
    rw [show (expressionIn .tree maxNesting).run tokens = _ from hr] at hm
    have hafter : (.ok (v, rest) : Except Diagnostic (Int64 × List Token)) =
      ((Meaning.value store).interpret e).map fun a => (a, after) := hm
    cases he : (Meaning.value store).interpret e with
    | error d => rw [he] at hafter; cases hafter
    | ok a =>
      rw [he] at hafter
      cases hafter
      obtain ⟨ts, hts, ht⟩ := expression_tree_sound hr
      exact ⟨ts, e, hts, ht, by rw [← Meaning.interpret_value, he]⟩

theorem expression_value_sound {store : Store} {tokens rest : List Token} {v : Int64}
    (h : (expression (.value store)).run tokens = .ok (v, rest)) :
    ∃ ts e, tokens = ts ++ rest ∧ Derives maxNesting .exp ts e := by
  obtain ⟨ts, e, hts, he, -⟩ := expression_value_eq_ok h
  exact ⟨ts, e, hts, he⟩

end Walk

/-! ## Lines -/

/-- a terminal that an expression may hold -/
def Terminal.InExpression : Terminal → Prop
  | .number _ | .identifier _ => True
  | .symbol s => s ≠ .ellipsis ∧ s ≠ .equals
  | _ => False

theorem Token.IsSign.inExpression {t : Token} (h : t.IsSign) : t.terminal.InExpression := by
  rcases h with h | h <;> rw [h] <;> exact ⟨by decide, by decide⟩

theorem Level.inExpression_of_mem {l : Level} {s : Symbol} {op : Operator} (h : (s, op) ∈ l.operators) :
    (Terminal.symbol s).InExpression := by
  cases l <;> simp only [operators, List.mem_cons, Prod.mk.injEq, List.not_mem_nil, or_false] at h
  all_goals rcases h with ⟨rfl, -⟩ | ⟨rfl, -⟩ | ⟨rfl, -⟩
  all_goals exact ⟨by decide, by decide⟩

theorem Derives.inExpression {room : Nat} {p : Phrase} {ts : List Token} {e : Expr} (h : Derives room p ts e) :
    ∀ t ∈ ts, t.terminal.InExpression := by
  induction h with
  | single _ _ ih => exact ih
  | unsigned _ _ ih => exact ih
  | plus _ ih => exact List.forall_mem_cons.2 ⟨⟨by decide, by decide⟩, ih⟩
  | minus _ ih => exact List.forall_mem_cons.2 ⟨⟨by decide, by decide⟩, ih⟩
  | join hmem _ _ ihl ihr =>
    exact List.forall_mem_append.2 ⟨ihl, List.forall_mem_cons.2 ⟨Level.inExpression_of_mem hmem, ihr⟩⟩
  | base _ ih => exact ih
  | power _ _ ihb ihx =>
    exact List.forall_mem_append.2 ⟨ihb, List.forall_mem_cons.2 ⟨⟨by decide, by decide⟩, ihx⟩⟩
  | group _ ih =>
    refine List.forall_mem_cons.2 ⟨⟨by decide, by decide⟩, List.forall_mem_append.2 ⟨ih, ?_⟩⟩
    exact List.forall_mem_singleton.2 ⟨by decide, by decide⟩
  | emptyGroup =>
    refine List.forall_mem_cons.2 ⟨⟨by decide, by decide⟩, ?_⟩
    exact List.forall_mem_singleton.2 ⟨by decide, by decide⟩
  | identifier => exact List.forall_mem_singleton.2 trivial
  | number hs =>
    exact List.forall_mem_append.2 ⟨fun t ht => (hs t ht).inExpression, List.forall_mem_singleton.2 trivial⟩

namespace Statement

/-- a line that is an expression is dispatched to it -/
theorem leading_of_derives {ts : List Token} {e : Expr} (h : Derives maxNesting .exp ts e) (column : Nat)
    (store : Store) : leading (ts ++ [⟨.eof, column⟩]) store = expression (ts ++ [⟨.eof, column⟩]) store := by
  unfold leading
  split
  next c rest htokens =>
    have hopen := h.opensOperand
    rw [← current_append hopen.ne_eof [⟨.eof, column⟩], htokens] at hopen
    exact absurd hopen id
  next name c c' rest htokens =>
    have hmem : (⟨.symbol .equals, c'⟩ : Token) ∈ ts := by
      have hin : (⟨.symbol .equals, c'⟩ : Token) ∈ ts ++ [⟨.eof, column⟩] := by rw [htokens]; simp
      simpa using hin
    exact absurd rfl (h.inExpression _ hmem).2
  next => rfl

/-- **An expression** yields what its tree evaluates to and leaves the store alone. -/
theorem run_expression {ts : List Token} {e : Expr} (h : Derives maxNesting .exp ts e) (column : Nat)
    (store : Store) : run (ts ++ [⟨.eof, column⟩]) store = (e.evaluate store, store) := by
  unfold run
  rw [leading_of_derives h, expression, Walk.expression_value h store (stops_eof column)]
  cases e.evaluate store <;> rfl

/-- **An assignment** evaluates its tree on the store with the target exposed. A value is stored in the target. -/
theorem run_assignment {ts : List Token} {e : Expr} (h : Derives maxNesting .exp ts e) (name : String)
    (c₁ c₂ column : Nat) (store : Store) :
    run (⟨.identifier name, c₁⟩ :: ⟨.symbol .equals, c₂⟩ :: (ts ++ [⟨.eof, column⟩])) store =
      match e.evaluate (store.expose name) with
      | .ok v => (.ok v, (store.expose name).assign name v)
      | .error d => (.error d, store.expose name) := by
  simp only [run, leading, assignment, Walk.expression_value h _ (stops_eof column)]
  cases e.evaluate (store.expose name) <;> rfl

end Statement

namespace Summation

/-- the bounds are computed, and the body is recorded -/
theorem walk_run {ls us bs : List Token} {lower upper body : Expr} (hl : Derives maxNesting .exp ls lower)
    (hu : Derives maxNesting .exp us upper) (hb : Derives maxNesting .exp bs body) (c₃ c₄ c₅ : Nat) (store : Store)
    {rest : List Token} (hrest : Stops .exp rest) :
    (walk store).run (⟨.keyword .bounds, c₃⟩ ::
        (ls ++ ⟨.symbol .ellipsis, c₄⟩ :: (us ++ ⟨.keyword .body, c₅⟩ :: (bs ++ rest)))) =
      (lower.evaluate store).bind fun lo =>
        (upper.evaluate store).bind fun hi => .ok (⟨lo, hi, c₄, body⟩, rest) := by
  rw [walk, Walk.run_bind_of_ok (Walk.run_expect_cons _ _ _), Walk.run_bind,
    Walk.expression_value hl store (stops_of_strength rfl _)]
  cases lower.evaluate store with
  | error d => rfl
  | ok lo =>
    show Walk.run _ _ = _
    rw [Walk.run_bind_of_ok (Walk.run_expect_cons _ _ _), Walk.run_bind,
      Walk.expression_value hu store (stops_of_strength rfl _)]
    cases upper.evaluate store with
    | error d => rfl
    | ok hi =>
      show Walk.run _ _ = _
      rw [Walk.run_bind_of_ok (Walk.run_expect_cons _ _ _), Walk.run_bind_of_ok (Walk.expression_tree hb hrest)]
      rfl

end Summation

/-- **A summation** evaluates both bounds on the store with the target exposed, the lower one first, and then runs. -/
theorem Statement.run_summation {ls us bs : List Token} {lower upper body : Expr}
    (hl : Derives maxNesting .exp ls lower) (hu : Derives maxNesting .exp us upper)
    (hb : Derives maxNesting .exp bs body) (name : String) (c₁ c₂ c₃ c₄ c₅ column : Nat) (store : Store) :
    run (⟨.keyword .sum, c₁⟩ :: ⟨.identifier name, c₂⟩ :: ⟨.keyword .bounds, c₃⟩ ::
        (ls ++ ⟨.symbol .ellipsis, c₄⟩ :: (us ++ ⟨.keyword .body, c₅⟩ :: (bs ++ [⟨.eof, column⟩])))) store =
      match lower.evaluate (store.expose name) with
      | .error d => (.error d, store.expose name)
      | .ok lo =>
        match upper.evaluate (store.expose name) with
        | .error d => (.error d, store.expose name)
        | .ok hi => Summation.run ⟨lo, hi, c₄, body⟩ name (store.expose name) := by
  have htarget : ∀ after, target.run (⟨.identifier name, c₂⟩ :: after) = .ok (name, after) := fun _ => rfl
  simp only [run, leading, summation, htarget,
    Summation.walk_run hl hu hb c₃ c₄ c₅ _ (stops_eof column)]
  cases lower.evaluate (store.expose name) with
  | error d => rfl
  | ok lo =>
    cases upper.evaluate (store.expose name) with
    | error d => rfl
    | ok hi =>
      simp only [Except.bind]
      generalize Summation.run ⟨lo, hi, c₄, body⟩ name (store.expose name) = result
      obtain ⟨total, after⟩ := result
      cases total <;> rfl

end LineCalc
