/-
Recording and computing agree: the tree that a walk records has the value that the same walk computes at once.

`Meaning.interpret` reads a tree back as a meaning; for `Meaning.value` this is `Expr.evaluate`. `Mirrors` relates a
recording walk to a computing one on every list of tokens:
- where recording succeeds with a tree, computing yields what the tree means, be it a value or a diagnostic, and stops
  at the same token;
- where recording fails, computing fails too, with the same diagnostic or with one that a name or an operation raised
  before.
A walk that goes on after a first operand is related to its twin by `Continues`, which speaks of the tree that was
recorded so far. Both are kept by every construct of the grammar, and so by expressions (`expressionIn_mirrors`).

Result:
- `expressionAt_value`: at any place of a line, computing on a store is recording and then evaluating on that store.
-/
import Mathlib.Tactic.SplitIfs
import LineCalc.Precedence

namespace LineCalc

/-! ## What a tree means -/

/-- a fault of the values in a line, not of its spelling -/
inductive Fault.Semantic : Fault → Prop
  | divisionByZero : Semantic .divisionByZero
  | modulusByZero : Semantic .modulusByZero
  | unassigned (name : String) : Semantic (.unassigned name)

theorem Fault.Semantic.stage {f : Fault} (h : f.Semantic) : f.stage = .computing := by
  cases h <;> rfl

namespace Meaning

variable {α : Type}

/-- what a tree means; the leftmost failing operand decides -/
def interpret (m : Meaning α) : Expr → Except Diagnostic α
  | .number v => .ok (m.number v)
  | .identifier name column => m.identifier name column
  | .negate e => (m.interpret e).map m.negate
  | .binary op left right column =>
    (m.interpret left).bind fun l => (m.interpret right).bind fun r => m.binary op l r column

/-- the diagnostics that a name or an operation raises -/
inductive Raises (m : Meaning α) : Diagnostic → Prop
  | identifier {name : String} {column : Nat} {d : Diagnostic} : m.identifier name column = .error d → Raises m d
  | binary {op : Operator} {l r : α} {column : Nat} {d : Diagnostic} : m.binary op l r column = .error d → Raises m d

theorem raises_of_interpret {m : Meaning α} {e : Expr} {d : Diagnostic} (h : m.interpret e = .error d) :
    m.Raises d := by
  induction e with
  | number v => cases h
  | identifier name column => exact .identifier h
  | negate e ih =>
    cases he : m.interpret e with
    | ok a => simp [interpret, he, Except.map] at h
    | error d' => simp only [interpret, he, Except.map, Except.error.injEq] at h; exact ih (h ▸ he)
  | binary op left right column ihl ihr =>
    cases hl : m.interpret left with
    | error d' => simp only [interpret, hl, Except.bind, Except.error.injEq] at h; exact ihl (h ▸ hl)
    | ok l =>
      cases hr : m.interpret right with
      | error d' => simp only [interpret, hl, hr, Except.bind, Except.error.injEq] at h; exact ihr (h ▸ hr)
      | ok r => simp only [interpret, hl, hr, Except.bind] at h; exact .binary h

theorem interpret_value (store : Store) (e : Expr) : (value store).interpret e = e.evaluate store := by
  induction e with
  | number v => rfl
  | identifier name column => rfl
  | negate e ih => simp only [interpret, Expr.evaluate, ih]; cases e.evaluate store <;> rfl
  | binary op left right column ihl ihr =>
    simp only [interpret, Expr.evaluate, ihl, ihr]
    cases left.evaluate store
    · rfl
    · cases right.evaluate store <;> rfl

end Meaning

theorem Operator.semantic_of_apply {op : Operator} {l r : Int64} {column : Nat} {d : Diagnostic}
    (h : op.apply l r column = .error d) : d.fault.Semantic := by
  cases op with
  | divide => simp only [apply] at h; split at h <;> cases h; exact .divisionByZero
  | modulo => simp only [apply] at h; split at h <;> cases h; exact .modulusByZero
  | power =>
    simp only [apply, raise] at h
    split_ifs at h
    cases h
    exact .divisionByZero
  | _ => cases h

theorem Store.semantic_of_read {store : Store} {name : String} {column : Nat} {d : Diagnostic}
    (h : store.read name column = .error d) : d.fault.Semantic := by
  unfold read at h
  split at h
  · cases h; exact .unassigned name
  · split at h <;> cases h; exact .unassigned name

theorem Meaning.semantic_of_raises {store : Store} {d : Diagnostic} (h : (value store).Raises d) :
    d.fault.Semantic := by
  cases h with
  | identifier h => exact Store.semantic_of_read h
  | binary h => exact Operator.semantic_of_apply h

theorem Expr.semantic_of_evaluate {store : Store} {e : Expr} {d : Diagnostic} (h : e.evaluate store = .error d) :
    d.fault.Semantic := by
  rw [← Meaning.interpret_value] at h
  exact Meaning.semantic_of_raises (Meaning.raises_of_interpret h)

namespace Walk

variable {α γ : Type} {m : Meaning α}

/-! ## The relation between two walks -/

/-- how a computed result relates to the recorded one -/
def Agrees (m : Meaning α) : Except Diagnostic (Expr × List Token) → Except Diagnostic (α × List Token) → Prop
  | .ok (e, rest), computed => computed = (m.interpret e).map fun a => (a, rest)
  | .error s, computed => ∃ d, computed = .error d ∧ (d = s ∨ m.Raises d)

/-- one walk records what the other computes -/
def Mirrors (m : Meaning α) (recording : Walk Expr) (computing : Walk α) : Prop :=
  ∀ tokens, Agrees m (recording.run tokens) (computing.run tokens)

/-- one walk records, after the tree `e`, what the other computes after the meaning of `e` -/
def Continues (m : Meaning α) (e : Expr) (recording : Walk Expr) (computing : α → Walk α) : Prop :=
  ∀ tokens, Agrees m (recording.run tokens) ((m.interpret e).bind fun a => (computing a).run tokens)

/-! ## Walks put together -/

theorem Mirrors.bind {R : Walk Expr} {C : Walk α} {K : Expr → Walk Expr} {L : α → Walk α} (h : Mirrors m R C)
    (hk : ∀ e, Continues m e (K e) L) : Mirrors m (R >>= K) (C >>= L) := by
  intro tokens
  have hR := h tokens
  cases hr : R.run tokens with
  | error s =>
    rw [hr] at hR
    obtain ⟨d, hd, hs⟩ := hR
    rw [run_bind_of_error hr, run_bind_of_error hd]
    exact ⟨d, rfl, hs⟩
  | ok r =>
    obtain ⟨e, rest⟩ := r
    rw [hr] at hR
    have hK := hk e rest
    rw [run_bind_of_ok hr]
    cases he : m.interpret e with
    | error d =>
      simp only [he, Agrees, Except.map] at hR
      rw [run_bind_of_error hR]
      rwa [he] at hK
    | ok a =>
      simp only [he, Agrees, Except.map] at hR
      rw [run_bind_of_ok hR]
      rwa [he] at hK

/-- a walk that both sides share -/
theorem Mirrors.shared (w : Walk γ) {K : γ → Walk Expr} {L : γ → Walk α} (hk : ∀ c, Mirrors m (K c) (L c)) :
    Mirrors m (w >>= K) (w >>= L) := by
  intro tokens
  cases hw : w.run tokens with
  | error s =>
    rw [run_bind_of_error hw, run_bind_of_error hw]
    exact ⟨s, rfl, Or.inl rfl⟩
  | ok r =>
    rw [run_bind_of_ok hw, run_bind_of_ok hw]
    exact hk r.1 r.2

theorem Mirrors.number (v : Int64) : Mirrors m (pure (.number v)) (pure (m.number v)) := fun _ => rfl

theorem Mirrors.identifier (name : String) (column : Nat) :
    Mirrors m (lift (Meaning.tree.identifier name column)) (lift (m.identifier name column)) := fun _ => rfl

theorem Mirrors.fail (s : Diagnostic) : Mirrors m (fail s) (fail s) := fun _ => ⟨s, rfl, Or.inl rfl⟩

/-- a failure while recording stands for any failure of the operands before it -/
theorem agrees_error {e : Expr} {f : α → Except Diagnostic (α × List Token)} (s : Diagnostic)
    (hf : ∀ a, m.interpret e = .ok a → Agrees m (.error s) (f a)) : Agrees m (.error s) ((m.interpret e).bind f) := by
  cases he : m.interpret e with
  | error d => exact ⟨d, rfl, Or.inr (Meaning.raises_of_interpret he)⟩
  | ok a => exact hf a he

theorem agrees_ok (e : Expr) (tokens : List Token) :
    Agrees m (.ok (e, tokens)) ((m.interpret e).bind fun a => .ok (a, tokens)) := by
  show _ = _
  cases m.interpret e <;> rfl

theorem Continues.pure (e : Expr) : Continues m e (pure e) pure := agrees_ok e

theorem Continues.fail (e : Expr) (s : Diagnostic) : Continues m e (fail s) (fun _ => fail s) :=
  fun _ => agrees_error s fun _ _ => ⟨s, rfl, Or.inl rfl⟩

theorem Continues.shared (e : Expr) (w : Walk γ) {K : γ → Walk Expr} {L : α → γ → Walk α}
    (hk : ∀ c, Continues m e (K c) fun a => L a c) : Continues m e (w >>= K) fun a => w >>= L a := by
  intro tokens
  cases hw : w.run tokens with
  | error s =>
    simp only [run_bind_of_error hw]
    exact agrees_error s fun _ _ => ⟨s, rfl, Or.inl rfl⟩
  | ok r =>
    simp only [run_bind_of_ok hw]
    exact hk r.1 r.2

theorem Continues.negate {e : Expr} {R : Walk Expr} {C : α → Walk α} (h : Continues m (.negate e) R C) :
    Continues m e R fun a => C (m.negate a) := by
  intro tokens
  have hn := h tokens
  simp only [Meaning.interpret] at hn
  cases he : m.interpret e with
  | error d => rw [he] at hn; exact hn
  | ok a => rw [he] at hn; exact hn

/-- a second operand, the operation on both, and what follows it -/
theorem agrees_binary (op : Operator) (l : Expr) (column : Nat) {R : Walk Expr} {C : Walk α} {tokens : List Token}
    (h : Agrees m (R.run tokens) (C.run tokens)) {f : Expr → List Token → Except Diagnostic (Expr × List Token)}
    {g : α → List Token → Except Diagnostic (α × List Token)}
    (hf : ∀ r rest, R.run tokens = .ok (r, rest) →
      Agrees m (f (.binary op l r column) rest)
        ((m.interpret (.binary op l r column)).bind fun a => g a rest)) :
    Agrees m ((R.run tokens).bind fun r => (Meaning.tree.binary op l r.1 column).bind fun e => f e r.2)
      ((m.interpret l).bind fun a =>
        (C.run tokens).bind fun r => (m.binary op a r.1 column).bind fun v => g v r.2) := by
  cases hr : R.run tokens with
  | error s =>
    rw [hr] at h
    obtain ⟨d, hd, hs⟩ := h
    rw [hd]
    exact agrees_error s fun _ _ => ⟨d, rfl, hs⟩
  | ok r =>
    obtain ⟨r, rest⟩ := r
    have hfr := hf r rest hr
    rw [hr] at h
    have hC : C.run tokens = (m.interpret r).map fun b => (b, rest) := h
    simp only [Meaning.interpret] at hfr
    rw [hC]
    cases hl : m.interpret l with
    | error d => rw [hl] at hfr; exact hfr
    | ok a =>
      rw [hl] at hfr
      cases hi : m.interpret r with
      | error d => rw [hi] at hfr; exact hfr
      | ok b => rw [hi] at hfr; exact hfr

/-! ## The constructs of the grammar -/

theorem foldRun_agrees (level : Level) {R : Walk Expr} {C : Walk α} (h : Mirrors m R C) (e : Expr)
    (tokens : List Token) :
    Agrees m (foldRun .tree level R e tokens) ((m.interpret e).bind fun a => foldRun m level C a tokens) := by
  -- every turn of the loop takes a token, so the length of what is left carries the induction
  induction hn : tokens.length using Nat.strongRecOn generalizing e tokens with
  | _ n ih =>
    subst hn
    cases hop : level.operator? (current tokens).terminal with
    | none =>
      simp only [foldRun_of_none hop]
      exact agrees_ok e tokens
    | some op =>
      cases tokens with
      | nil => cases level <;> cases hop
      | cons t tokens =>
        simp only [foldRun_of_some (t := t) hop]
        refine agrees_binary op e t.column (h tokens) (f := foldRun .tree level R) (g := foldRun m level C) ?_
        intro r rest hr
        have hlt := (R.suffix hr).length_le
        exact ih rest.length (by simp only [List.length_cons]; omega) _ rest rfl

theorem chain_mirrors (level : Level) {R : Walk Expr} {C : Walk α} (h : Mirrors m R C) :
    Mirrors m (chain .tree level R) (chain m level C) :=
  h.bind fun e tokens => foldRun_agrees level h e tokens

theorem sum_mirrors {R : Walk Expr} {C : Walk α} (h : Mirrors m R C) : Mirrors m (sum .tree R) (sum m C) := by
  refine Mirrors.shared sign fun negative => h.bind fun e => ?_
  have hfold : ∀ e, Continues m e (fold .tree .additive R e) (fold m .additive C) :=
    fun e tokens => foldRun_agrees .additive h e tokens
  cases negative with
  | false => exact hfold e
  | true => exact (hfold (.negate e)).negate

theorem power_mirrors {R : Walk Expr} {C : Walk α} (h : Mirrors m R C) :
    Mirrors m (power .tree R) (power m C) := by
  refine h.bind fun e => Continues.shared e peek fun t => ?_
  split
  · refine Continues.shared e advance fun _ tokens => ?_
    simp only [run_bind, run_lift]
    exact agrees_binary .power e t.column (h tokens) (f := fun e rest => .ok (e, rest))
      (g := fun a rest => .ok (a, rest)) fun r rest _ => agrees_ok _ rest
  · exact Continues.pure e

theorem signedNumber_mirrors : Mirrors m (signedNumber .tree) (signedNumber m) := by
  refine Mirrors.shared signRun fun negative => Mirrors.shared peek fun t => ?_
  split
  · exact Mirrors.shared advance fun _ => Mirrors.number _
  · exact Mirrors.fail _

theorem orEmpty_mirrors {R : Walk Expr} {C : Walk α} (h : Mirrors m R C) :
    Mirrors m (orEmpty .tree R) (orEmpty m C) := by
  refine Mirrors.shared peek fun t => ?_
  split
  · exact Mirrors.number 0
  · exact h

theorem group_mirrors (column : Nat) {R : Walk Expr} {C : Walk α} (h : Mirrors m R C) :
    Mirrors m (group .tree R column) (group m C column) := by
  refine (orEmpty_mirrors h).bind fun e => Continues.shared e (accept (.symbol .closeParen)) fun closed => ?_
  cases closed with
  | false => exact Continues.fail e _
  | true => exact Continues.pure e

theorem operand_mirrors {R : Option (Walk Expr)} {C : Option (Walk α)}
    (h : Option.Rel (Mirrors m) R C) : Mirrors m (operand .tree R) (operand m C) := by
  refine Mirrors.shared peek fun t => ?_
  split
  · refine Mirrors.shared advance fun _ => ?_
    cases h with
    | none => exact Mirrors.fail _
    | some h => exact group_mirrors t.column h
  · exact Mirrors.fail _
  · exact Mirrors.shared advance fun _ => Mirrors.identifier _ _
  · exact signedNumber_mirrors

/-! ## Expressions -/

theorem levels_mirrors {R : Walk Expr} {C : Walk α} (h : Mirrors m R C) :
    Mirrors m (levels .tree R) (levels m C) :=
  chain_mirrors .bitOr (chain_mirrors .bitXor (chain_mirrors .bitAnd (chain_mirrors .shift
    (sum_mirrors (chain_mirrors .multiplicative (power_mirrors h))))))

theorem factor_mirrors (m : Meaning α) (room : Nat) : Mirrors m (factor .tree room) (factor m room) := by
  induction room with
  | zero => exact operand_mirrors .none
  | succ room ih => exact operand_mirrors (.some (levels_mirrors ih))

theorem expressionIn_mirrors (m : Meaning α) (room : Nat) :
    Mirrors m (expressionIn .tree room) (expressionIn m room) :=
  levels_mirrors (factor_mirrors m room)

theorem expressionAfter_mirrors (m : Meaning α) (opened : Bool) (room : Nat) :
    Mirrors m (expressionAfter .tree opened room) (expressionAfter m opened room) := by
  cases opened with
  | false => exact expressionIn_mirrors m room
  | true => exact orEmpty_mirrors (expressionIn_mirrors m room)

/-- **Computing is recording and evaluating.** At every place of a line and with any number of open parentheses,
recording does not look at the store. Where it yields a tree, computing yields what the tree evaluates to, be it a
value or a diagnostic, and stops at the same cursor. Where it fails, computing fails with the same diagnostic or with
a semantic one. -/
theorem expressionAt_value (tokens : List Token) (cursor depth : Nat) (store : Store) :
    match expressionAt .tree tokens cursor depth with
    | .ok (e, stop) =>
      expressionAt (.value store) tokens cursor depth = (e.evaluate store).map fun v => (v, stop)
    | .error s =>
      ∃ d, expressionAt (.value store) tokens cursor depth = .error d ∧ (d = s ∨ d.fault.Semantic) := by
  have h := expressionAfter_mirrors (.value store) (opensAt tokens cursor) (maxNesting - depth) (tokens.drop cursor)
  unfold expressionAt
  cases hr : (expressionAfter .tree (opensAt tokens cursor) (maxNesting - depth)).run (tokens.drop cursor) with
  | error s =>
    rw [hr] at h
    obtain ⟨d, hd, hs⟩ := h
    exact ⟨d, by rw [hd]; rfl, hs.imp_right Meaning.semantic_of_raises⟩
  | ok r =>
    rw [hr] at h
    have hv : _ = _ := h
    simp only [Except.map] at hv ⊢
    rw [hv, Meaning.interpret_value]
    cases r.1.evaluate store <;> rfl

end Walk

end LineCalc
