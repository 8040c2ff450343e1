/-
Why a line has no value: every diagnostic of a statement is traced back to tokens of the line.

A refusal has one of three causes (`Cause`): the tokens read so far begin a statement and the next one, or an open
parenthesis among them, is blamed for the rest; a name or an operation among them has no value on the store; or a range
is too large, at the `...` that stands among them.

`Walk.Proceeds` goes along with a walk over a line of which some tokens were read before: a value meets an assertion
about all tokens read, and a refusal has a cause in them. `Proceeds.bind` composes, so that the walk of a summation is
followed from token to token. What is found holds with any other tokens behind the next one.

Results, for every list of tokens and every store:
- `leading_settled`: the statement at the front, with the store it leaves;
- `run_settled`: the whole line.
-/
import LineCalc.Proofs.Acceptance
import LineCalc.Proofs.Lookahead

namespace LineCalc

/-! ## What reading a store raises -/

namespace Store

/-- where `t` has no value for a name, neither has `s`, and both tell so in the same way -/
def Reveals (s t : Store) : Prop :=
  ∀ name column d, t.read name column = .error d → s.read name column = .error d

theorem Reveals.trans {s t u : Store} (h : Reveals s t) (h' : Reveals t u) : Reveals s u :=
  fun name column d hd => h name column d (h' name column d hd)

/-- a change of one name that makes it readable -/
theorem reveals_change (s : Store) (name : String) {f : Slot → Slot} (hname : ∀ slot, (f slot).name = slot.name)
    (hassigned : ∀ slot, (f slot).assigned = true) : Reveals s (s.change name f) := by
  intro other column d h
  by_cases hother : other = name
  · subst hother
    simp [read, find?_change_self s other f hname, Slot.value?, hassigned] at h
  · rwa [read, find?_change_of_ne s f hname hother] at h

theorem reveals_expose (s : Store) (name : String) : Reveals s (s.expose name) :=
  reveals_change s name (fun _ => rfl) fun _ => rfl

theorem reveals_assign (s : Store) (name : String) (v : Int64) : Reveals s (s.assign name v) :=
  reveals_change s name (fun _ => rfl) fun _ => rfl

end Store

/-- a name or an operation among `ts` raises `d` on `store` -/
inductive Raised (store : Store) (ts : List Token) (d : Diagnostic) : Prop
  | name {name : String} {column : Nat} :
      ⟨.identifier name, column⟩ ∈ ts → store.read name column = .error d → Raised store ts d
  | operation {op : Operator} {l r : Int64} {column : Nat} :
      ⟨.symbol op.symbol, column⟩ ∈ ts → op.apply l r column = .error d → Raised store ts d

namespace Raised

variable {store : Store} {ts us : List Token} {d : Diagnostic}

theorem mono (hsub : ts ⊆ us) (h : Raised store ts d) : Raised store us d := by
  cases h with
  | name hmem hread => exact .name (hsub hmem) hread
  | operation hmem happly => exact .operation (hsub hmem) happly

theorem of_reveals {revealed : Store} (hstore : store.Reveals revealed) (h : Raised revealed ts d) :
    Raised store ts d := by
  cases h with
  | name hmem hread => exact .name hmem (hstore _ _ _ hread)
  | operation hmem happly => exact .operation hmem happly

theorem semantic (h : Raised store ts d) : d.fault.Semantic := by
  cases h with
  | name _ hread => exact Store.semantic_of_read hread
  | operation _ happly => exact Operator.semantic_of_apply happly

/-- a tree that has no value fails at one of its own tokens -/
theorem of_evaluate {e : Expr} (he : e.WrittenIn ts) (h : e.evaluate store = .error d) : Raised store ts d := by
  induction e with
  | number v => cases h
  | identifier name column => exact .name he h
  | negate e ih =>
    rw [← Meaning.interpret_value] at h ih
    simp only [Meaning.interpret] at h
    cases hv : (Meaning.value store).interpret e with
    | ok v => rw [hv] at h; cases h
    | error raised => rw [hv] at h; cases h; exact ih he hv
  | binary op left right column ihl ihr =>
    obtain ⟨hop, hleft, hright⟩ := he
    rw [← Meaning.interpret_value] at h ihl ihr
    simp only [Meaning.interpret] at h
    cases hl : (Meaning.value store).interpret left with
    | error raised => rw [hl] at h; cases h; exact ihl hleft hl
    | ok l =>
      cases hr : (Meaning.value store).interpret right with
      | error raised => rw [hl, hr] at h; cases h; exact ihr hright hr
      | ok r => rw [hl, hr] at h; exact .operation hop h

end Raised

/-! ## The beginnings of lines -/

/-- more tokens can make `us` a statement -/
def BeginsLine (us : List Token) : Prop :=
  ∃ ts, IsStatement ts ∧ us <+: ts

theorem IsStatement.begins {ts : List Token} (h : IsStatement ts) : BeginsLine ts :=
  ⟨ts, h, List.prefix_refl ts⟩

theorem BeginsLine.of_append {us vs : List Token} (h : BeginsLine (us ++ vs)) : BeginsLine us := by
  obtain ⟨ts, hts, hpre⟩ := h
  exact ⟨ts, hts, (List.prefix_append us vs).trans hpre⟩

/-- a statement holds no `eof`, and neither does its beginning -/
theorem BeginsLine.ne_eof {us : List Token} (h : BeginsLine us) : ∀ t ∈ us, t.terminal ≠ .eof := by
  obtain ⟨ts, hts, hpre⟩ := h
  exact fun t ht => hts.ne_eof t (hpre.subset ht)

/-- why a line has no value: what `us`, the tokens read, and `next` have to do with it -/
inductive Cause (store : Store) (us : List Token) (next : Token) : Diagnostic → Prop
  | spelling {d : Diagnostic} : BeginsLine us → Blames maxNesting us next d → Cause store us next d
  | values {d : Diagnostic} : Raised store us d → Cause store us next d
  | range {column : Nat} : ⟨.symbol .ellipsis, column⟩ ∈ us → Cause store us next (.rangeTooLarge maxIterations column)

theorem Cause.of_reveals {store revealed : Store} {us : List Token} {next : Token} {d : Diagnostic}
    (hstore : store.Reveals revealed) (h : Cause revealed us next d) : Cause store us next d := by
  cases h with
  | spelling hline hblames => exact .spelling hline hblames
  | values hraised => exact .values (hraised.of_reveals hstore)
  | range hmem => exact .range hmem

/-! ## Walking along a line -/

namespace Walk

variable {α β : Type} {store : Store} {ts tokens : List Token}

/-- after `ts`, the walk reads on in `tokens`: a value meets `Q`, which speaks of all tokens read, and a refusal has a
cause in them -/
def Proceeds (store : Store) (ts : List Token) (w : Walk α) (tokens : List Token) (Q : List Token → α → Prop) : Prop :=
  ∃ us rest r, tokens = us ++ rest ∧ Yields w us (current rest) r ∧
    match r with
    | .ok a => Q (ts ++ us) a
    | .error d => Cause store (ts ++ us) (current rest) d

namespace Proceeds

theorem bind {w : Walk α} {f : α → Walk β} {Q : List Token → α → Prop} {R : List Token → β → Prop}
    (hw : Proceeds store ts w tokens Q) (hf : ∀ us rest a, Q us a → Proceeds store us (f a) rest R) :
    Proceeds store ts (w >>= f) tokens R := by
  obtain ⟨us, mid, r, rfl, hyield, hr⟩ := hw
  cases r with
  | error d => exact ⟨us, mid, .error d, rfl, hyield.bind_of_error f, hr⟩
  | ok a =>
    obtain ⟨vs, rest, q, rfl, hafter, hq⟩ := hf (ts ++ us) mid a hr
    exact ⟨us ++ vs, rest, q, by simp, hyield.bind hafter, by rwa [List.append_assoc] at hq⟩

theorem pure {a : α} {Q : List Token → α → Prop} (h : Q ts a) : Proceeds store ts (Pure.pure a) tokens Q :=
  ⟨[], tokens, .ok a, rfl, .pure a _, by rwa [List.append_nil]⟩

/-- one token of the statement -/
theorem expect {t : Terminal} (ht : t ≠ .eof) (hline : BeginsLine ts) :
    Proceeds store ts (expect t) tokens fun us found => ∃ column, found = ⟨t, column⟩ ∧ us = ts ++ [⟨t, column⟩] := by
  by_cases hfound : (current tokens).terminal = t
  · obtain ⟨column, tail, rfl⟩ := exists_cons_of_terminal hfound ht
    exact ⟨[⟨t, column⟩], tail, .ok ⟨t, column⟩, rfl, fun rest _ => run_expect_cons t column rest, column, rfl, rfl⟩
  · refine ⟨[], tokens, .error (.mismatch t.name (current tokens).terminal.name (current tokens).column), rfl,
      fun rest hrest => ?_, .spelling (by rwa [List.append_nil]) (.mismatch _)⟩
    rw [List.nil_append, run_expect, hrest, if_neg hfound]
    rfl

end Proceeds

end Walk

namespace Meaning

/-- what a meaning makes of an ending is the value of the phrase, or a diagnostic with its cause -/
theorem cause_of_outcome {α : Type} {m : Meaning α} {store : Store} {ts us : List Token} {next : Token}
    {ending : Ending} {d : Diagnostic}
    (hraise : ∀ {e d}, e.WrittenIn us → m.interpret e = .error d → Raised store us d) (hopens : Opens ts [])
    (hline : ∀ {vs e}, Derives maxNesting .exp vs e → BeginsLine (ts ++ vs))
    (hfit : Fits maxNesting .exp us next ending) (h : m.outcome ending = .error d) :
    Cause store (ts ++ us) next d := by
  cases hfit with
  | phrase he => exact .values ((hraise he.writtenIn h).mono (List.subset_append_right _ _))
  | @refusal es s hbegins hblames hes =>
    obtain ⟨vs, e, he⟩ := hbegins
    have hbegins := hline he
    rw [← List.append_assoc] at hbegins
    induction es with
    | nil =>
      cases h
      exact .spelling hbegins.of_append (hblames.after hopens)
    | cons x es ih =>
      rw [outcome_refusal_cons] at h
      cases hx : m.interpret x with
      | error raised =>
        rw [hx] at h
        cases h
        exact .values ((hraise (hes x List.mem_cons_self) hx).mono (List.subset_append_right _ _))
      | ok a =>
        rw [hx] at h
        exact ih (fun e he => hes e (List.mem_cons_of_mem _ he)) h

theorem interpret_tree (e : Expr) : tree.interpret e = .ok e := by
  induction e with
  | number v => rfl
  | identifier name column => rfl
  | negate e ih => rw [interpret, ih]; rfl
  | binary op left right column ihl ihr => rw [interpret, ihl, ihr]; rfl

end Meaning

namespace Walk

variable {α : Type} {store : Store} {ts tokens : List Token}

/-- an expression of the statement, whatever is made of it -/
theorem expression_proceeds {m : Meaning α}
    (hraise : ∀ {us e d}, e.WrittenIn us → m.interpret e = .error d → Raised store us d) (hopens : Opens ts [])
    (hline : ∀ {vs e}, Derives maxNesting .exp vs e → BeginsLine (ts ++ vs)) :
    Proceeds store ts (expression m) tokens fun us a =>
      ∃ vs e, us = ts ++ vs ∧ Derives maxNesting .exp vs e ∧ m.interpret e = .ok a := by
  obtain ⟨us, rest, ending, rfl, hfit, hyield⟩ := expressionIn_settles maxNesting tokens
  refine ⟨us, rest, m.outcome ending, rfl, hyield α m, ?_⟩
  cases hout : m.outcome ending with
  | error d => exact Meaning.cause_of_outcome hraise hopens hline hfit hout
  | ok a =>
    cases hfit with
    | @phrase e he => exact ⟨us, e, rfl, he, hout⟩
    | refusal => cases hout

theorem expression_value_proceeds (hopens : Opens ts [])
    (hline : ∀ {vs e}, Derives maxNesting .exp vs e → BeginsLine (ts ++ vs)) :
    Proceeds store ts (expression (.value store)) tokens fun us v =>
      ∃ vs e, us = ts ++ vs ∧ Derives maxNesting .exp vs e ∧ (Meaning.value store).interpret e = .ok v :=
  expression_proceeds (fun he h => .of_evaluate he (by rwa [← Meaning.interpret_value])) hopens hline

theorem expression_tree_proceeds (hopens : Opens ts [])
    (hline : ∀ {vs e}, Derives maxNesting .exp vs e → BeginsLine (ts ++ vs)) :
    Proceeds store ts (expression .tree) tokens fun us e =>
      ∃ vs e', us = ts ++ vs ∧ Derives maxNesting .exp vs e' ∧ Meaning.tree.interpret e' = .ok e :=
  expression_proceeds (fun _ h => by rw [Meaning.interpret_tree] at h; cases h) hopens hline

/-- a name is read, if an expression begins with one -/
theorem takes_name {room : Nat} {us rest : List Token} {ending : Ending} {name : String}
    (hyield : ∀ (α : Type) (m : Meaning α), Yields (expressionIn m room) us (current rest) (m.outcome ending))
    (h : (current (us ++ rest)).terminal = .identifier name) : us ≠ [] := by
  rintro rfl
  -- if the name is all there is, it is an expression, and nothing is left of it
  have hrun := hyield Expr .tree [current rest] rfl
  have hname : current rest = ⟨.identifier name, (current rest).column⟩ := by rw [← h]; rfl
  have hall : (expressionIn .tree room).run [current rest] = .ok (.identifier name (current rest).column, []) := by
    rw [hname]
    exact (expressionIn_reads room).complete (.ofIdentifier room name _) Nat.zero_lt_one
  rw [List.nil_append, hall] at hrun
  cases hout : Meaning.tree.outcome ending with
  | error d => rw [hout] at hrun; cases hrun
  | ok e => rw [hout] at hrun; cases hrun

end Walk

/-! ## Statements -/

namespace Summation

/-- what follows the target of a summation is read up to its body, which is written in the line as well -/
theorem walk_proceeds (store : Store) (name : String) (c₁ c₂ : Nat) (tokens : List Token) :
    Walk.Proceeds store [⟨.keyword .sum, c₁⟩, ⟨.identifier name, c₂⟩] (walk store) tokens fun us s =>
      IsStatement us ∧ ⟨.symbol .ellipsis, s.column⟩ ∈ us ∧ s.body.WrittenIn us := by
  have hnum := Derives.ofNumber maxNesting 0 0
  have hhead : Opens [⟨.keyword .sum, c₁⟩, ⟨.identifier name, c₂⟩] [] := .of_forall (by simp)
  -- the statement that is read so far, with numbers in the place of what is still missing
  have hline {c₃ c₄ c₅ ls us bs lower upper body} (hl : Derives maxNesting .exp ls lower)
      (hu : Derives maxNesting .exp us upper) (hb : Derives maxNesting .exp bs body) :=
    @IsStatement.summation name c₁ c₂ c₃ c₄ c₅ ls us bs lower upper body hl hu hb
  refine (Walk.Proceeds.expect (by simp) ⟨_, @hline 0 0 0 _ _ _ _ _ _ hnum hnum hnum, by simp⟩).bind ?_
  rintro _ after _ ⟨c₃, rfl, rfl⟩
  have hopens : Opens ([⟨.keyword .sum, c₁⟩, ⟨.identifier name, c₂⟩] ++ [⟨.keyword .bounds, c₃⟩]) [] :=
    hhead.append (.of_forall (by simp))
  refine (Walk.expression_value_proceeds hopens fun hl => ⟨_, @hline c₃ 0 0 _ _ _ _ _ _ hl hnum hnum, by simp⟩).bind ?_
  rintro _ after lo ⟨ls, lower, rfl, hl, -⟩
  refine (Walk.Proceeds.expect (by simp) ⟨_, @hline c₃ 0 0 _ _ _ _ _ _ hl hnum hnum, by simp⟩).bind ?_
  rintro _ after _ ⟨c₄, rfl, rfl⟩
  have hdots : Opens [⟨.symbol .ellipsis, c₄⟩] [] := .of_forall (by simp)
  have hopens : Opens _ [] := (hopens.append hl.opens).append hdots
  refine (Walk.expression_value_proceeds hopens fun hu => ⟨_, @hline c₃ c₄ 0 _ _ _ _ _ _ hl hu hnum, by simp⟩).bind ?_
  rintro _ after hi ⟨us, upper, rfl, hu, -⟩
  refine (Walk.Proceeds.expect (by simp) ⟨_, @hline c₃ c₄ 0 _ _ _ _ _ _ hl hu hnum, by simp⟩).bind ?_
  rintro _ after _ ⟨c₅, rfl, rfl⟩
  have hin : Opens [⟨.keyword .body, c₅⟩] [] := .of_forall (by simp)
  have hopens : Opens _ [] := (hopens.append hu.opens).append hin
  refine (Walk.expression_tree_proceeds hopens fun hb => ⟨_, @hline c₃ c₄ c₅ _ _ _ _ _ _ hl hu hb, by simp⟩).bind ?_
  rintro _ after e ⟨bs, body, rfl, hb, he⟩
  rw [Meaning.interpret_tree] at he
  cases he
  refine .pure ⟨by simpa using @hline c₃ c₄ c₅ _ _ _ _ _ _ hl hu hb, by simp, hb.writtenIn.mono ?_⟩
  exact List.subset_append_right _ _

/-- a summation fails at a token of its body, or because of its range -/
theorem raised_of_run {s : Summation} {name : String} {store : Store} {ts : List Token} {d : Diagnostic}
    (hbody : s.body.WrittenIn ts) (h : (s.run name store).1 = .error d) :
    Raised store ts d ∨ d = .rangeTooLarge maxIterations s.column := by
  have hloop : ∀ {count index total revealed}, store.Reveals revealed →
      (accumulate name s.body count index total revealed).1 = .error d → Raised store ts d := by
    intro count
    induction count with
    | zero => intro index total revealed _ h; cases h
    | succ count ih =>
      intro index total revealed hreveals h
      have hreveals := hreveals.trans (revealed.reveals_assign name index)
      unfold accumulate at h
      dsimp only at h
      split at h
      next => exact ih hreveals h
      next hbad => cases h; exact (Raised.of_evaluate hbody hbad).of_reveals hreveals
  unfold run at h
  split at h
  next => cases h; exact Or.inr rfl
  next => exact Or.inl (hloop (store.reveals_assign name s.lower) h)

end Summation

namespace Statement

/-- what the statement at the front of `tokens` comes to, told of the tokens it takes and the next one -/
def Settled (tokens : List Token) (store : Store) : Prop :=
  ∃ (us rest : List Token) (r : Except Diagnostic Int64) (left : Store), tokens = us ++ rest ∧
    (∀ rest', current rest' = current rest → leading (us ++ rest') store = (r.map fun v => (v, rest'), left)) ∧
    match r with
    | .ok _ => IsStatement us
    | .error d => Cause store us (current rest) d

theorem target_of_not_identifier {tokens : List Token} (h : ∀ name, (current tokens).terminal ≠ .identifier name) :
    target.run tokens =
      .error (.mismatch "Identifier" (current tokens).terminal.name (current tokens).column) := by
  rw [target, Walk.run_peek_bind]
  split
  next name hname => exact absurd hname (h name)
  next => rfl

theorem target_of_identifier (name : String) (column : Nat) (tokens : List Token) :
    target.run (⟨.identifier name, column⟩ :: tokens) = .ok (name, tokens) := rfl

theorem summation_of_target_error {tokens : List Token} {d : Diagnostic} (h : target.run tokens = .error d)
    (store : Store) : summation tokens store = (.error d, store) := by
  unfold summation
  rw [h]

theorem summation_of_walk_error {tokens : List Token} {store : Store} {name : String} {d : Diagnostic}
    (h : (Summation.walk (store.expose name)).run tokens = .error d) (column : Nat) :
    summation (⟨.identifier name, column⟩ :: tokens) store = (.error d, store.expose name) := by
  rw [summation, target_of_identifier]
  simp only [h]

theorem summation_of_walk_ok {tokens rest : List Token} {store : Store} {name : String} {s : Summation}
    (h : (Summation.walk (store.expose name)).run tokens = .ok (s, rest)) (column : Nat) :
    summation (⟨.identifier name, column⟩ :: tokens) store =
      ((s.run name (store.expose name)).1.map fun v => (v, rest), (s.run name (store.expose name)).2) := by
  rw [summation, target_of_identifier]
  simp only [h]

/-- what may come of a summation: no target follows `sum`, or the rest is refused, or it runs -/
theorem summation_cases (tokens : List Token) (store : Store) :
    (∃ d, summation tokens store = (.error d, store) ∧ d.fault.stage = .parsing) ∨
      ∃ name column rest, tokens = ⟨.identifier name, column⟩ :: rest ∧
        ((∃ d, (Summation.walk (store.expose name)).run rest = .error d) ∨
          ∃ s after, (Summation.walk (store.expose name)).run rest = .ok (s, after)) := by
  by_cases hname : ∃ name, (current tokens).terminal = .identifier name
  · right
    obtain ⟨name, hname⟩ := hname
    obtain ⟨column, rest, rfl⟩ := exists_cons_of_terminal hname (by simp)
    refine ⟨name, column, rest, rfl, ?_⟩
    cases hwalk : (Summation.walk (store.expose name)).run rest with
    | error d => exact Or.inl ⟨d, rfl⟩
    | ok r => exact Or.inr ⟨r.1, r.2, rfl⟩
  · left
    have htarget := target_of_not_identifier fun name h => hname ⟨name, h⟩
    exact ⟨_, summation_of_target_error htarget store, rfl⟩

theorem summation_settled (c₁ : Nat) (tail : List Token) (store : Store) :
    Settled (⟨.keyword .sum, c₁⟩ :: tail) store := by
  by_cases hname : ∃ name, (current tail).terminal = .identifier name
  · obtain ⟨name, hname⟩ := hname
    obtain ⟨c₂, tail, rfl⟩ := exists_cons_of_terminal hname (by simp)
    obtain ⟨us, rest, r, rfl, hyield, hr⟩ := Summation.walk_proceeds (store.expose name) name c₁ c₂ tail
    cases r with
    | error d =>
      exact ⟨_ :: _ :: us, rest, .error d, store.expose name, rfl,
        fun rest' hrest => summation_of_walk_error (hyield rest' hrest) c₂, hr.of_reveals (store.reveals_expose name)⟩
    | ok s =>
      obtain ⟨hline, hdots, hbody⟩ := hr
      refine ⟨_ :: _ :: us, rest, (s.run name (store.expose name)).1, (s.run name (store.expose name)).2, rfl,
        fun rest' hrest => summation_of_walk_ok (hyield rest' hrest) c₂, ?_⟩
      cases htotal : (s.run name (store.expose name)).1 with
      | ok v => exact hline
      | error d =>
        rcases Summation.raised_of_run hbody htotal with hraised | rfl
        · exact .values (hraised.of_reveals (store.reveals_expose name))
        · exact .range hdots
  · have hnum := Derives.ofNumber maxNesting 0 0
    have hline : BeginsLine [⟨.keyword .sum, c₁⟩] :=
      ⟨_, @IsStatement.summation "x" c₁ 0 0 0 0 _ _ _ _ _ _ hnum hnum hnum, by simp⟩
    refine ⟨[⟨.keyword .sum, c₁⟩], tail,
      .error (.mismatch "Identifier" (current tail).terminal.name (current tail).column), store, rfl,
      fun rest hrest => ?_, .spelling hline (.mismatch "Identifier")⟩
    rw [← hrest]
    exact summation_of_target_error (target_of_not_identifier fun name h => hname ⟨name, by rwa [← hrest]⟩) store

theorem assignment_settled (name : String) (c₁ c₂ : Nat) (tail : List Token) (store : Store) :
    Settled (⟨.identifier name, c₁⟩ :: ⟨.symbol .equals, c₂⟩ :: tail) store := by
  have hopens : Opens [⟨.identifier name, c₁⟩, ⟨.symbol .equals, c₂⟩] [] := .of_forall (by simp)
  obtain ⟨us, rest, r, rfl, hyield, hr⟩ := @Walk.expression_value_proceeds (store.expose name) _ tail hopens
    fun he => (@IsStatement.assignment name c₁ c₂ _ _ he).begins
  have hrun : ∀ rest', current rest' = current rest →
      leading (⟨.identifier name, c₁⟩ :: ⟨.symbol .equals, c₂⟩ :: (us ++ rest')) store =
        match r with
        | .ok v => (.ok (v, rest'), (store.expose name).assign name v)
        | .error d => (.error d, store.expose name) := by
    intro rest' hrest
    rw [leading, assignment, hyield rest' hrest]
    cases r <;> rfl
  cases r with
  | error d => exact ⟨_ :: _ :: us, rest, .error d, _, rfl, hrun, hr.of_reveals (store.reveals_expose name)⟩
  | ok v =>
    obtain ⟨vs, e, hvs, he, _⟩ := hr
    cases List.append_cancel_left hvs
    exact ⟨_ :: _ :: us, rest, .ok v, _, rfl, hrun, .assignment he⟩

theorem leading_of_expression {tokens : List Token} (hsum : (current tokens).terminal ≠ .keyword .sum)
    (hassign : ∀ name, (current tokens).terminal = .identifier name →
      (current tokens.tail).terminal ≠ .symbol .equals) (store : Store) :
    leading tokens store = expression tokens store := by
  unfold leading
  split
  next => exact absurd rfl hsum
  next name _ _ _ => exact absurd rfl (hassign name rfl)
  next => rfl

theorem expression_settled {tokens : List Token} (hsum : (current tokens).terminal ≠ .keyword .sum)
    (hassign : ∀ name, (current tokens).terminal = .identifier name →
      (current tokens.tail).terminal ≠ .symbol .equals) (store : Store) : Settled tokens store := by
  obtain ⟨us, rest, ending, rfl, hfit, hyield⟩ := Walk.expressionIn_settles maxNesting tokens
  refine ⟨us, rest, (Meaning.value store).outcome ending, store, rfl, fun rest' hrest => ?_, ?_⟩
  · have hcurrent := current_append_congr us hrest
    have hleading : leading (us ++ rest') store = expression (us ++ rest') store := by
      refine leading_of_expression (by rwa [hcurrent]) (fun name hname => ?_) store
      rw [hcurrent] at hname
      have hsecond := hassign name hname
      cases us with
      | nil => exact absurd rfl (Walk.takes_name hyield hname)
      | cons u us =>
        have hnext : current (us ++ rest') = current (us ++ rest) := current_append_congr us hrest
        exact fun h => hsecond (by rwa [List.cons_append, List.tail_cons, hnext] at h)
    rw [hleading, expression, Walk.expression, hyield Int64 (.value store) rest' hrest]
  · cases hout : (Meaning.value store).outcome ending with
    | ok v =>
      cases hfit with
      | phrase he => exact .expression he
      | refusal => cases hout
    | error d =>
      have hraise : ∀ {e d}, e.WrittenIn us → (Meaning.value store).interpret e = .error d → Raised store us d :=
        fun he h => .of_evaluate he (by rwa [← Meaning.interpret_value])
      exact Meaning.cause_of_outcome hraise .nil (fun he => (IsStatement.expression he).begins) hfit hout

theorem leading_settled (tokens : List Token) (store : Store) : Settled tokens store := by
  by_cases hsum : (current tokens).terminal = .keyword .sum
  · obtain ⟨c₁, tail, rfl⟩ := exists_cons_of_terminal hsum (by simp)
    exact summation_settled c₁ tail store
  by_cases hassign : ∃ name, (current tokens).terminal = .identifier name ∧
      (current tokens.tail).terminal = .symbol .equals
  · obtain ⟨name, hname, hequals⟩ := hassign
    obtain ⟨c₁, tail, rfl⟩ := exists_cons_of_terminal hname (by simp)
    obtain ⟨c₂, tail, rfl⟩ := exists_cons_of_terminal hequals (by simp)
    exact assignment_settled name c₁ c₂ tail store
  · exact expression_settled hsum (fun name hname hequals => hassign ⟨name, hname, hequals⟩) store

/-- what follows a statement is the end of the line, or is blamed -/
theorem conclude_cases (v : Int64) (rest : List Token) :
    ((current rest).terminal = .eof ∧ conclude v rest = .ok v) ∨
      ∃ d, conclude v rest = .error d ∧ ∀ us, Blames maxNesting us (current rest) d := by
  unfold conclude
  dsimp only
  split
  next heof => exact Or.inl ⟨heof, rfl⟩
  next hclose => exact Or.inr ⟨_, rfl, fun _ => .unopened hclose⟩
  next heof _ => exact Or.inr ⟨_, rfl, fun _ => .leftover heof⟩

/-- **Every diagnostic of a line has its cause in the tokens that were read, or in the next one.** A line with a value
is a statement and ends. Tokens after the next one make no difference. -/
theorem run_settled (tokens : List Token) (store : Store) :
    ∃ us rest, tokens = us ++ rest ∧
      (∀ rest', current rest' = current rest → run (us ++ rest') store = run tokens store) ∧
      match (run tokens store).1 with
      | .ok _ => IsStatement us ∧ (current rest).terminal = .eof
      | .error d => Cause store us (current rest) d := by
  obtain ⟨us, rest, r, left, rfl, hleading, hr⟩ := leading_settled tokens store
  have hrun : ∀ rest', current rest' = current rest →
      run (us ++ rest') store = (r.bind fun v => conclude v rest, left) := by
    intro rest' hrest
    rw [run, hleading rest' hrest]
    cases r with
    | error d => rfl
    | ok v => simp only [Except.map, Except.bind, conclude, hrest]
  refine ⟨us, rest, rfl, fun rest' hrest => (hrun rest' hrest).trans (hrun rest rfl).symm, ?_⟩
  rw [hrun rest rfl]
  cases r with
  | error d => exact hr
  | ok v =>
    show match conclude v rest with | .ok _ => _ | .error d => _
    rcases conclude_cases v rest with ⟨heof, hok⟩ | ⟨d, hd, hblames⟩
    · rw [hok]
      exact ⟨hr, heof⟩
    · rw [hd]
      exact .spelling hr.begins (hblames us)

end Statement

end LineCalc
