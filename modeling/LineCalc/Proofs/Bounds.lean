/-
The parser stays inside of its tokens, and does what walks do.

Whatever the parser is given behind an `eof`, it does on the row before it what a walk does that has any other tokens
there: it comes to the same result or the same diagnostic, with the cursor where the rest of the walk begins. A call may
also begin in an empty group, between its halves. Then it reads nothing and is worth 0, which walks leave to the group.
`Simulates` says both for a level of the grammar, and each construct turns parts that simulate walks into one that
simulates a walk. Loops and groups spend rounds, and each of them takes a token: fewer tokens lie ahead than rounds are
left (`factor_simulates`, by induction on the rounds).

Result: `parse_bounded`.
-/
import LineCalc.Proofs.Running
import LineCalc.Proofs.Causes
import LineCalc.Proofs.Asking

namespace LineCalc

namespace Parser

variable {α β : Type} {l : Line} {depth cursor : Nat} {s : Store} {q : Parser}

/-! ## Signs -/

theorem sign_stays (hplus : (l.token cursor).terminal ≠ .symbol .plus)
    (hminus : (l.token cursor).terminal ≠ .symbol .minus) : Runs l depth cursor s sign (Gives false cursor s) :=
  (check_of_ne hplus).step ((check_of_ne hminus).step (.pure ⟨rfl, rfl, rfl⟩))

/-- a sign in front of a term is taken; behind a sign no empty group can be begun -/
theorem sign_runs (hgroup : ¬ l.EmptyGroup cursor) :
    ∃ negative cursor', Runs l depth cursor s sign (Gives negative cursor' s) ∧
      Walk.sign.run (l.rest cursor) = .ok (negative, l.rest cursor') ∧ cursor ≤ cursor' ∧ ¬ l.EmptyGroup cursor' := by
  by_cases hplus : (l.token cursor).terminal = .symbol .plus
  · refine ⟨false, cursor + 1, ?_, ?_, Nat.le_succ _, Line.not_emptyGroup_succ hplus (by simp)⟩
    · exact (check_of_eq hplus).step ((advance_runs hplus (by simp)).step (.pure ⟨rfl, rfl, rfl⟩))
    · rw [Line.rest_of_terminal hplus (by simp)]
      exact Walk.run_sign_plus _ _
  by_cases hminus : (l.token cursor).terminal = .symbol .minus
  · refine ⟨true, cursor + 1, ?_, ?_, Nat.le_succ _, Line.not_emptyGroup_succ hminus (by simp)⟩
    · refine (check_of_ne hplus).step ((check_of_eq hminus).step ?_)
      exact (advance_runs hminus (by simp)).step (.pure ⟨rfl, rfl, rfl⟩)
    · rw [Line.rest_of_terminal hminus (by simp)]
      exact Walk.run_sign_minus _ _
  · have hsign : ¬ (l.token cursor).IsSign := not_or.2 ⟨hplus, hminus⟩
    exact ⟨false, cursor, sign_stays hplus hminus, Walk.run_sign_of_not_isSign hsign, Nat.le_refl _, hgroup⟩

/-- the signs of a number are counted as they are taken -/
theorem signs_runs {rounds : Nat} (hrounds : l.row.length < cursor + rounds) (negative : Bool) :
    Runs l depth cursor s (signs rounds negative)
      (AsWalk l (.ok (negative ^^ (Walk.signs (l.rest cursor)).1, (Walk.signs (l.rest cursor)).2), s)) := by
  induction rounds generalizing cursor negative with
  | zero => exact .of_lt hrounds
  | succ rounds ih =>
    have hnext : l.row.length < cursor + 1 + rounds := by omega
    by_cases hminus : (l.token cursor).terminal = .symbol .minus
    · have hsigns := ih hnext (!negative)
      rw [Line.rest_of_terminal hminus (by simp), Walk.signs]
      rw [Bool.not_xor, ← Bool.xor_not] at hsigns
      exact (check_of_eq hminus).step ((advance_runs hminus (by simp)).step hsigns)
    by_cases hplus : (l.token cursor).terminal = .symbol .plus
    · rw [Line.rest_of_terminal hplus (by simp), Walk.signs]
      refine (check_of_ne hminus).step ((check_of_eq hplus).step ?_)
      exact (advance_runs hplus (by simp)).step (ih hnext negative)
    · have hsign : ¬ (l.token cursor).IsSign := not_or.2 ⟨hplus, hminus⟩
      rw [Walk.signs_of_not_isSign hsign, Bool.xor_false]
      exact (check_of_ne hminus).step ((check_of_ne hplus).step (.pure rfl))

/-! ## Levels -/

/-- `x` does what `w` does, except in an empty group, where it reads nothing and is worth 0 -/
structure Simulates (l : Line) (rounds depth : Nat) (m : Meaning α) (x : Action α) (w : Walk α) : Prop where
  full {cursor : Nat} {s : Store} : l.row.length < cursor + rounds → ¬ l.EmptyGroup cursor →
    Runs l depth cursor s x (AsWalk l (w.run (l.rest cursor), s))
  empty {cursor : Nat} {s : Store} : l.row.length < cursor + rounds → l.EmptyGroup cursor →
    Runs l depth cursor s x (Gives (m.number 0) cursor s)

section
variable {rounds : Nat} {m : Meaning α} {level : Level} {x : Action α} {w : Walk α}

/-- no operator follows -/
theorem fold_stays (n : Nat) {left : α} (h : level.operator? (l.token cursor).terminal = none)
    (hn : l.row.length < cursor + n) : Runs l depth cursor s (fold m level x n left) (Gives left cursor s) := by
  cases n with
  | zero => exact .of_lt hn
  | succ n => exact (takeOperator_stays h).step (.pure ⟨rfl, rfl, rfl⟩)

/-- every operator takes one of the rounds and one token at least, and no operator is a `(` -/
theorem fold_runs (hx : Simulates l rounds depth m x w) (n : Nat) (left : α) (hn : l.row.length < cursor + n)
    (hrounds : l.row.length < cursor + rounds) :
    Runs l depth cursor s (fold m level x n left)
      (AsWalk l (Walk.foldRun m level w left (l.rest cursor), s)) := by
  induction n generalizing cursor left with
  | zero => exact .of_lt hn
  | succ n ih =>
    cases hop : level.operator? (l.token cursor).terminal with
    | none => exact (fold_stays (n + 1) hop hn).asWalk (Walk.foldRun_of_none hop)
    | some op =>
      obtain ⟨sym, hsym, -⟩ := Level.operator?_eq_some_iff.1 hop
      have hgroup : ¬ l.EmptyGroup (cursor + 1) := by
        refine Line.not_emptyGroup_succ hsym fun hopen => ?_
        rw [hsym, hopen] at hop
        cases level <;> cases hop
      rw [Line.rest_of_terminal hsym (by simp), Walk.foldRun_of_some (by rwa [← hsym])]
      refine (takeOperator_takes hop).step ?_
      refine (hx.full (by omega) hgroup).walk fun right cursor' hcursor => ?_
      exact .lift fun folded => ih folded (by omega) (by omega)

theorem chain_simulates (level : Level) (hx : Simulates l rounds depth m x w)
    (hclose : level.operator? (.symbol .closeParen) = none) :
    Simulates l rounds depth m (chain m level rounds x) (Walk.chain m level w) where
  full hrounds hgroup := by
    rw [Walk.chain, Walk.run_bind]
    refine .call _ ((hx.full hrounds hgroup).walk fun first cursor' hcursor => ?_)
    exact fold_runs hx rounds first (by omega) (by omega)
  empty hrounds hgroup := by
    refine .call _ ((hx.empty hrounds hgroup).step (fold_stays rounds ?_ hrounds))
    rw [hgroup.closes]
    exact hclose

theorem sum_simulates (hx : Simulates l rounds depth m x w) :
    Simulates l rounds depth m (sum m rounds x) (Walk.sum m w) where
  full {cursor s} hrounds hgroup := by
    obtain ⟨negative, cursor', hsign, hwalk, hcursor, hgroup'⟩ := sign_runs hgroup
    rw [Walk.sum, Walk.run_bind_of_ok hwalk, Walk.run_bind]
    refine .call _ (hsign.step ((hx.full (by omega) hgroup').walk fun first cursor'' hcursor' => ?_))
    exact fold_runs hx rounds _ (by omega) (by omega)
  empty {cursor s} hrounds hgroup := by
    have hsign : Runs l depth cursor s sign (Gives false cursor s) :=
      sign_stays (by simp [hgroup.closes]) (by simp [hgroup.closes])
    refine .call _ (hsign.step ((hx.empty hrounds hgroup).step (fold_stays rounds ?_ hrounds)))
    rw [hgroup.closes]
    rfl

theorem power_simulates (hx : Simulates l rounds depth m x w) :
    Simulates l rounds depth m (power m x) (Walk.power m w) where
  full {cursor s} hrounds hgroup := by
    rw [Walk.power, Walk.run_bind]
    refine .call _ ((hx.full hrounds hgroup).walk fun base cursor' hcursor => ?_)
    rw [Walk.run_peek_bind, Line.current_rest]
    by_cases hstar : (l.token cursor').terminal = .symbol .starStar
    · rw [if_pos hstar, Walk.run_bind_of_ok (Line.run_advance hstar (by simp)), Walk.run_bind]
      refine (check_of_eq hstar).step ((advance_runs hstar (by simp)).step ?_)
      refine (hx.full (by omega) (Line.not_emptyGroup_succ hstar (by simp))).walk fun exponent cursor'' _ => ?_
      exact .ofExcept rfl
    · rw [if_neg hstar]
      exact (check_of_ne hstar).step (.pure rfl)
  empty {cursor s} hrounds hgroup := by
    refine .call _ ((hx.empty hrounds hgroup).step ((check_of_ne ?_).step (.pure ⟨rfl, rfl, rfl⟩)))
    simp [hgroup.closes]

theorem levels_simulates (hx : Simulates l rounds depth m x w) :
    Simulates l rounds depth m (levels m rounds x) (Walk.levels m w) := by
  have hterm := chain_simulates .multiplicative (power_simulates hx) rfl
  have hshift := chain_simulates .shift (sum_simulates hterm) rfl
  exact chain_simulates .bitOr (chain_simulates .bitXor (chain_simulates .bitAnd hshift rfl) rfl) rfl

end

/-! ## Operands -/

section
variable {rounds : Nat} {m : Meaning α} {x : Action α}

theorem signedNumber_runs (hrounds : l.row.length < cursor + rounds) :
    Runs l depth cursor s (signedNumber m rounds) (AsWalk l ((Walk.signedNumber m).run (l.rest cursor), s)) := by
  have hsigns := @signs_runs l depth cursor s rounds hrounds false
  rw [Bool.false_xor] at hsigns
  rw [Walk.signedNumber, Walk.run_bind]
  refine hsigns.walk fun negative cursor' _ => peek_runs.step ?_
  rw [Walk.run_peek_bind, Line.current_rest]
  cases hfound : (l.token cursor').terminal with
  | number v =>
    dsimp only
    rw [Walk.run_bind_of_ok (Line.run_advance hfound (by simp))]
    exact (advance_runs hfound (by simp)).step (.pure rfl)
  | _ => exact .refuse rfl

theorem afterOpening_runs :
    Runs l depth cursor s afterOpening
      (Gives (decide (cursor ≠ 0 ∧ (l.token (cursor - 1)).terminal = .symbol .openParen)) cursor s) := by
  intro p hp
  rw [afterOpening, hp.cursor_eq]
  split
  next hzero =>
    rw [decide_eq_false fun h => h.1 hzero]
    exact Runs.pure ⟨rfl, rfl, rfl⟩ p hp
  next hzero =>
    have hprevious : Runs l depth cursor s
        (previous >>= fun t => Pure.pure (decide (t.terminal = .symbol .openParen)))
        (Gives (decide (cursor ≠ 0 ∧ (l.token (cursor - 1)).terminal = .symbol .openParen)) cursor s) :=
      previous_runs.step (.pure ⟨by simp [hzero], rfl, rfl⟩)
    exact hprevious p hp

/-- what stands behind a `(`: a walk looks ahead for a `)`, an operand looks back for the `(` -/
theorem inGroup_runs {w : Walk α} (hx : Simulates l rounds (depth + 1) m x w) (hdepth : depth < maxNesting)
    (hrounds : l.row.length < cursor + 1 + rounds) (hopens : (l.token cursor).terminal = .symbol .openParen) :
    Runs l depth (cursor + 1) s (inGroup x)
      (AsWalk l ((Walk.orEmpty m w).run (l.rest (cursor + 1)), s)) := by
  rw [Walk.orEmpty, Walk.run_peek_bind, Line.current_rest]
  by_cases hcloses : (l.token (cursor + 1)).terminal = .symbol .closeParen
  · rw [if_pos hcloses]
    have hgroup : l.EmptyGroup (cursor + 1) := ⟨Nat.succ_ne_zero cursor, hopens, hcloses⟩
    exact .inGroup hdepth ((hx.empty hrounds hgroup).asWalk rfl)
  · rw [if_neg hcloses]
    exact .inGroup hdepth (hx.full hrounds fun hgroup => hcloses hgroup.closes)

theorem group_runs {w : Walk α} (hx : Simulates l rounds (depth + 1) m x w) (hdepth : depth < maxNesting)
    (hrounds : l.row.length < cursor + 1 + rounds) (hopens : (l.token cursor).terminal = .symbol .openParen)
    (column : Nat) :
    Runs l depth (cursor + 1) s (group x column)
      (AsWalk l ((Walk.group m w column).run (l.rest (cursor + 1)), s)) := by
  have hparens : Runs l depth (cursor + 1) s (inParens x column)
      (AsWalk l ((Walk.group m w column).run (l.rest (cursor + 1)), s)) := by
    rw [Walk.group, Walk.run_bind]
    refine (inGroup_runs hx hdepth hrounds hopens).walk fun a cursor' _ => ?_
    rw [Walk.run_bind, Walk.run_accept, Line.current_rest]
    by_cases hcloses : (l.token cursor').terminal = .symbol .closeParen
    · rw [if_pos hcloses, Line.rest_of_terminal hcloses (by simp)]
      exact (check_of_eq hcloses).step ((advance_runs hcloses (by simp)).step (.pure rfl))
    · rw [if_neg hcloses]
      exact (check_of_ne hcloses).step (.refuse rfl)
  intro p hp
  have hne : p.depth ≠ maxNesting := by
    rw [hp.depth_eq]
    exact Nat.ne_of_lt hdepth
  rw [group, if_neg hne]
  exact hparens p hp

theorem group_of_full (column : Nat) :
    Runs l maxNesting cursor s (group x column)
      (AsWalk l (.error (.nestingTooDeep maxNesting column), s)) := by
  intro p hp
  rw [group, if_pos hp.depth_eq]
  exact Runs.refuse rfl p hp

/-- what may stand in the parentheses of an operand: with as many open as may be, nothing at all -/
inductive Below (l : Line) (rounds : Nat) (m : Meaning α) (x : Action α) : (depth : Nat) → Option (Walk α) → Prop
  | none : Below l rounds m x maxNesting none
  | some {depth : Nat} {w : Walk α} :
      depth < maxNesting → Simulates l rounds (depth + 1) m x w → Below l rounds m x depth (some w)

theorem operand_simulates {inner : Option (Walk α)} (h : Below l rounds m x depth inner) :
    Simulates l (rounds + 1) depth m (operand m (rounds + 1) x) (Walk.operand m inner) where
  full {cursor s} hrounds hgroup := by
    refine .call _ (peek_runs.step ?_)
    rw [Walk.operand, Walk.run_peek_bind, Line.current_rest]
    cases hfound : (l.token cursor).terminal with
    | identifier name =>
      dsimp only
      rw [Walk.run_bind_of_ok (Line.run_advance hfound (by simp))]
      exact (advance_runs hfound (by simp)).step (.ofExcept rfl)
    | symbol sym =>
      cases sym with
      | openParen =>
        dsimp only
        rw [Walk.run_bind_of_ok (Line.run_advance hfound (by simp))]
        refine (advance_runs hfound (by simp)).step ?_
        cases h with
        | none => exact group_of_full _
        | some hdepth hx => exact group_runs hx hdepth (by omega) hfound _
      | closeParen =>
        have hnone : ¬ (cursor ≠ 0 ∧ (l.token (cursor - 1)).terminal = .symbol .openParen) :=
          fun h => hgroup ⟨h.1, h.2, hfound⟩
        refine afterOpening_runs.step ?_
        rw [decide_eq_false hnone]
        exact .refuse rfl
      | _ => exact signedNumber_runs hrounds
    | _ => exact signedNumber_runs hrounds
  empty {cursor s} hrounds hgroup := by
    refine .call _ (peek_runs.step ?_)
    rw [hgroup.closes]
    refine afterOpening_runs.step ?_
    rw [decide_eq_true ⟨hgroup.ne_zero, hgroup.opens⟩]
    exact .pure ⟨rfl, rfl, rfl⟩

end

/-! ## Expressions -/

/-- with every group, one round more is spent and one parenthesis more is open -/
theorem factor_simulates (m : Meaning α) (rounds : Nat) (hdepth : depth ≤ maxNesting) :
    Simulates l rounds depth m (factor m rounds) (Walk.factor m (maxNesting - depth)) := by
  induction rounds generalizing depth with
  | zero => exact ⟨fun h _ => .of_lt h, fun h _ => .of_lt h⟩
  | succ rounds ih =>
    rcases Nat.lt_or_eq_of_le hdepth with hlt | rfl
    · have hroom : maxNesting - depth = maxNesting - (depth + 1) + 1 := by omega
      rw [hroom]
      exact operand_simulates (.some hlt (levels_simulates (ih hlt)))
    · rw [Nat.sub_self]
      exact operand_simulates .none

theorem expression_simulates (m : Meaning α) (rounds : Nat) :
    Simulates l rounds 0 m (expression m rounds) (Walk.expression m) :=
  levels_simulates (factor_simulates m rounds (Nat.zero_le _))

/-! ## Statements -/

section
variable {rounds : Nat}

theorem value_runs (hrounds : l.row.length < cursor + rounds) (hgroup : ¬ l.EmptyGroup cursor) :
    Runs l 0 cursor s (value rounds) (AsWalk l ((Walk.expression (.value s)).run (l.rest cursor), s)) := by
  intro p hp
  rw [value, hp.store_eq]
  exact (expression_simulates (.value s) rounds).full hrounds hgroup p hp

theorem total_runs (r : Summation) (name : String) :
    Runs l depth cursor s (total r name)
      (AsWalk l ((r.run name s).1.map fun v => (v, l.rest cursor), (r.run name s).2)) := by
  intro p hp
  rw [total, hp.store_eq]
  refine ⟨⟨rfl, rfl, (Reaches.refl hp).trace⟩, (r.run name s).1, rfl, ?_⟩
  rw [← hp.cursor_eq]
  rfl

theorem consume_of_eq {t : Terminal} (h : (l.token cursor).terminal = t) (ht : t ≠ .eof) :
    Runs l depth cursor s (consume t) (Gives (l.token cursor) (cursor + 1) s) :=
  (check_of_eq h).step (advance_runs h ht)

/-- one token that has to come, and then what a walk does -/
theorem consume_runs {t : Terminal} (ht : t ≠ .eof) {f : Token → Action β} {g : Token → Walk β}
    (hf : (l.token cursor).terminal = t → Runs l depth (cursor + 1) s (f (l.token cursor))
      (AsWalk l ((g (l.token cursor)).run (l.rest (cursor + 1)), s))) :
    Runs l depth cursor s (consume t >>= f) (AsWalk l ((Walk.expect t >>= g).run (l.rest cursor), s)) := by
  rw [Walk.run_bind, Walk.run_expect, Line.current_rest]
  by_cases h : (l.token cursor).terminal = t
  · rw [if_pos h, Line.rest_eq_cons (Line.lt_of_terminal h ht), List.tail_cons]
    exact (consume_of_eq h ht).step (hf h)
  · rw [if_neg h]
    exact .refused ((check_of_ne h).step (peek_runs.step (.refuse rfl)))

theorem afterTarget_runs (hrounds : l.row.length < cursor + rounds) :
    Runs l 0 cursor s (afterTarget rounds) (AsWalk l ((Summation.walk s).run (l.rest cursor), s)) := by
  refine consume_runs (by simp) fun hbounds => ?_
  rw [Walk.run_bind]
  refine (value_runs (by omega) (Line.not_emptyGroup_succ hbounds (by simp))).walk fun lower cursor₁ _ => ?_
  refine consume_runs (by simp) fun hdots => ?_
  rw [Walk.run_bind]
  refine (value_runs (by omega) (Line.not_emptyGroup_succ hdots (by simp))).walk fun upper cursor₂ _ => ?_
  refine consume_runs (by simp) fun hbody => ?_
  rw [Walk.run_bind]
  have hgroup := Line.not_emptyGroup_succ hbody (by simp)
  refine ((expression_simulates .tree rounds).full (by omega) hgroup).walk fun body cursor₃ _ => ?_
  exact .pure rfl

theorem target_of_name {name : String} (h : (l.token cursor).terminal = .identifier name) :
    Runs l depth cursor s target (Gives name (cursor + 1) s) := by
  refine peek_runs.step ?_
  rw [h]
  exact (advance_runs h (by simp)).step (.pure ⟨rfl, rfl, rfl⟩)

theorem target_of_not_name (h : ∀ name, (l.token cursor).terminal ≠ .identifier name) :
    Runs l depth cursor s target
      (AsWalk l (.error (.mismatch "Identifier" (l.token cursor).terminal.name (l.token cursor).column), s)) := by
  refine peek_runs.step ?_
  split
  next name hname => exact absurd hname (h name)
  next => exact .refuse rfl

theorem summation_runs (hrounds : l.row.length < cursor + rounds) (hsum : (l.token cursor).terminal = .keyword .sum) :
    Runs l 0 cursor s (summation rounds) (AsWalk l (Statement.summation (l.rest (cursor + 1)) s)) := by
  refine (consume_of_eq hsum (by simp)).step ?_
  by_cases hname : ∃ name, (l.token (cursor + 1)).terminal = .identifier name
  · obtain ⟨name, hname⟩ := hname
    rw [Line.rest_of_terminal hname (by simp)]
    refine (target_of_name hname).step ((Runs.changeStore _).step ?_)
    refine (afterTarget_runs (by omega)).bind (fun r cursor' s' _ hpost => ?_) (fun d cursor' s' hpost => ?_)
    · obtain ⟨hwalk, rfl⟩ := Prod.mk.inj hpost
      rw [Statement.summation_of_walk_ok hwalk]
      exact total_runs r name
    · obtain ⟨hwalk, rfl⟩ := Prod.mk.inj hpost
      rw [Statement.summation_of_walk_error hwalk]
      rfl
  · have hnone : ∀ name, (l.token (cursor + 1)).terminal ≠ .identifier name := fun name h => hname ⟨name, h⟩
    rw [Statement.summation_of_target_error (Statement.target_of_not_identifier hnone)]
    exact .refused (target_of_not_name hnone)

theorem assignment_runs {name : String} (hrounds : l.row.length < cursor + rounds)
    (hname : (l.token cursor).terminal = .identifier name)
    (hequals : (l.token (cursor + 1)).terminal = .symbol .equals) :
    Runs l 0 cursor s (assignment rounds) (AsWalk l (Statement.assignment name (l.rest (cursor + 2)) s)) := by
  refine (target_of_name hname).step ((Runs.changeStore _).step ((consume_of_eq hequals (by simp)).step ?_))
  have hgroup := Line.not_emptyGroup_succ hequals (by simp)
  refine (value_runs (by omega) hgroup).bind (fun v cursor' s' _ hpost => ?_) (fun d cursor' s' hpost => ?_)
  · obtain ⟨hwalk, rfl⟩ := Prod.mk.inj hpost
    refine (Runs.changeStore _).step (.pure ?_)
    rw [Statement.assignment]
    simp only [hwalk]
    rfl
  · obtain ⟨hwalk, rfl⟩ := Prod.mk.inj hpost
    rw [Statement.assignment]
    simp only [hwalk]
    rfl

theorem checkSecond_runs (t : Terminal) (h : cursor < l.row.length) :
    Runs l depth cursor s (checkSecond t) (Gives (decide ((l.token (cursor + 1)).terminal = t)) cursor s) := by
  intro p hp
  have hsecond : checkSecond t p = (.ok (decide ((l.token (cursor + 1)).terminal = t)), p) := by
    rw [checkSecond, hp.cursor_eq, hp.getElem? h]
    rfl
  rw [hsecond]
  exact Runs.pure ⟨rfl, rfl, rfl⟩ p hp

theorem statement_runs (hrounds : l.row.length < cursor + rounds) (hgroup : ¬ l.EmptyGroup cursor) :
    Runs l 0 cursor s (statement rounds) (AsWalk l (Statement.leading (l.rest cursor) s)) := by
  by_cases hsum : (l.token cursor).terminal = .keyword .sum
  · rw [Line.rest_of_terminal hsum (by simp)]
    exact (check_of_eq hsum).step (summation_runs hrounds hsum)
  refine (check_of_ne hsum).step (peek_runs.step ?_)
  split
  next name hname =>
    refine (checkSecond_runs _ (Line.lt_of_terminal hname (by simp))).step ?_
    by_cases hequals : (l.token (cursor + 1)).terminal = .symbol .equals
    · rw [decide_eq_true hequals, Line.rest_of_terminal hname (by simp), Line.rest_of_terminal hequals (by simp)]
      exact assignment_runs hrounds hname hequals
    · have htail : (l.rest cursor).tail = l.rest (cursor + 1) := by
        rw [Line.rest_of_terminal hname (by simp), List.tail_cons]
      rw [decide_eq_false hequals, Statement.leading_of_expression hsum]
      · exact value_runs hrounds hgroup
      · rw [htail]
        exact fun _ _ => hequals
  next hother =>
    rw [Statement.leading_of_expression hsum fun name h => absurd h (hother name)]
    exact value_runs hrounds hgroup

/-- what follows a statement is looked at last -/
theorem parse_runs (hrounds : l.row.length < rounds) :
    Runs l 0 0 s (parse rounds) fun e _ s' => (e, s') = Statement.run (l.rest 0) s := by
  have hstatement : Runs l 0 0 s (statement rounds) (AsWalk l (Statement.leading (l.rest 0) s)) :=
    statement_runs (by omega) fun hgroup => hgroup.ne_zero rfl
  refine hstatement.bind (fun v cursor s' _ hpost => ?_) (fun d cursor s' hpost => ?_)
  · have hrun : Statement.run (l.rest 0) s = (Statement.conclude v (l.rest cursor), s') := by
      rw [Statement.run, hpost]
      rfl
    rw [hrun, Statement.conclude, Line.current_rest]
    by_cases heof : (l.token cursor).terminal = .eof
    · rw [heof]
      exact (check_of_eq heof).step (.pure rfl)
    · refine (check_of_ne heof).step (peek_runs.step ?_)
      cases hnext : (l.token cursor).terminal with
      | eof => exact absurd hnext heof
      | symbol sym => cases sym <;> exact .refuse rfl
      | _ => exact .refuse rfl
  · rw [Statement.run, hpost]
    rfl

end

/-! ## Whole lines -/

/-- what a finished run has kept to, with the first `eof` at `last` -/
structure Bounded (last : Nat) (p : Parser) : Prop where
  within : ∀ e ∈ p.journal, e.Within last
  /-- the cursor never goes back, and ends where it is now -/
  cursors : (p.journal.filterMap Event.cursor? ++ [p.cursor]).Pairwise (· ≤ ·)
  cursor_le : p.cursor ≤ last
  balanced : Balanced p.journal
  depth_eq : p.depth = 0

theorem Reaches.bounded {tokens : List Token} (h : Reaches l (start tokens s) q) : q.Bounded l.row.length := by
  obtain ⟨events, hjournal, htrace⟩ := h.trace
  have hevents : q.journal = events := hjournal.trans (List.nil_append events)
  subst hevents
  refine ⟨htrace.within, ?_, htrace.bounds.2.1, htrace.balanced, h.depth⟩
  refine List.pairwise_append.2 ⟨htrace.pairwise_cursor, List.pairwise_singleton _ _, fun k hk last hlast => ?_⟩
  rw [List.mem_singleton.1 hlast]
  exact (htrace.cursor_mem k hk).2

/-- whatever stands behind the `eof`, for the parser and for the walk -/
theorem parse_start (l : Line) (s : Store) {rounds : Nat} (hrounds : l.row.length < rounds) (back : List Token) :
    let r := parse rounds (start (l.row ++ ⟨.eof, l.column⟩ :: back) s)
    r.2.Bounded l.row.length ∧ r.1 = (Statement.run (l.rest 0) s).1.mapError Halt.refused ∧
      r.2.store = (Statement.run (l.rest 0) s).2 := by
  intro r
  have hplace : At l 0 0 s (start (l.row ++ ⟨.eof, l.column⟩ :: back) s) :=
    ⟨⟨back, rfl⟩, rfl, rfl, rfl, Nat.zero_le _, Nat.zero_le _⟩
  obtain ⟨hreaches, e, he, hrun⟩ := parse_runs hrounds _ hplace
  rw [← hrun]
  exact ⟨hreaches.bounded, he, rfl⟩

theorem mapError_refused_inj {e e' : Except Diagnostic α} (h : e.mapError Halt.refused = e'.mapError Halt.refused) :
    e = e' := by
  cases e <;> cases e' <;> cases h <;> rfl

/-- **The parser stays inside of its tokens.** Over tokens that end with `eof`, with as many rounds as tokens, it comes
to the result and the store of `Statement.run`, so it neither runs out of rounds nor looks for a token that is not
there. It keeps to the tokens up to the first `eof` (`Bounded`), and those behind it make no difference. The tokens of a
line that are looked at outside of a statement are there as well. -/
theorem parse_bounded :
    (∀ (tokens : List Token) (store : Store) (rounds : Nat),
      tokens.getLast?.map Token.terminal = some .eof → tokens.length ≤ rounds →
        let last := tokens.findIdx fun t => t.terminal = .eof
        let cut := tokens.take (last + 1)
        let r := parse rounds (start tokens store)
        let r' := parse rounds (start cut store)
        let w := Statement.run tokens store
        last < tokens.length ∧ r.2.Bounded last ∧ r.1 = w.1.mapError Halt.refused ∧ r.2.store = w.2 ∧
          r'.1 = r.1 ∧ r'.2.store = r.2.store ∧ Statement.run cut store = w) ∧
    ∀ line : String,
      (tokensOf line)[0]? = some (current (tokensOf line)) ∧
      ((current (tokensOf line)).terminal = .keyword .help →
        (tokensOf line)[1]? = some (current (tokensOf line).tail)) := by
  refine ⟨fun tokens store rounds heof hrounds => ?_, fun line => ?_⟩
  · intro last cut r r' w
    obtain ⟨l, rfl, hlast⟩ := Line.exists_of_getLast? heof
    have hlast' : last = l.row.length := hlast
    have hlength : l.row.length < (l.rest 0).length := by
      rw [Line.rest, List.drop_zero, List.length_append, List.length_cons]
      omega
    have hcut : cut = l.row ++ [⟨.eof, l.column⟩] := by
      show (l.rest 0).take (last + 1) = _
      rw [hlast']
      exact List.take_length_add_append 1
    have hmore : l.row.length < rounds := Nat.lt_of_lt_of_le hlength hrounds
    obtain ⟨hbounded, hresult, hstore⟩ := parse_start l store hmore l.after
    -- on the tokens that are cut off, the parser does what either walk does
    obtain ⟨-, hresult', hstore'⟩ := parse_start l store hmore []
    obtain ⟨-, hself, hstoreSelf⟩ := parse_start { l with after := [] } store hmore []
    have hrun : Statement.run (l.row ++ [⟨.eof, l.column⟩]) store = w :=
      Prod.ext (mapError_refused_inj (hself.symm.trans hresult')) (hstoreSelf.symm.trans hstore')
    refine ⟨?_, ?_, hresult, hstore, ?_, ?_, ?_⟩
    · rw [hlast']
      exact hlength
    · rw [hlast']
      exact hbounded
    · show (parse rounds (start cut store)).1 = r.1
      rw [hcut]
      exact hresult'.trans hresult.symm
    · show (parse rounds (start cut store)).2.store = r.2.store
      rw [hcut]
      exact hstore'.trans hstore.symm
    · rw [hcut]
      exact hrun
  · obtain ⟨ts, htokens, -⟩ := tokensOf_eq_append line
    refine ⟨?_, fun hhelp => ?_⟩
    · rw [htokens]
      cases ts <;> rfl
    · obtain ⟨first, second, rest, hline, -⟩ := Session.exists_second hhelp
      rw [hline]
      rfl

/-- the first `eof` is right behind an empty group, and more tokens follow it -/
theorem parse_bounded_tokens_behind_eof :
    let tokens : List Token :=
      [⟨.symbol .openParen, 1⟩, ⟨.symbol .closeParen, 2⟩, ⟨.eof, 3⟩, ⟨.symbol .plus, 4⟩, ⟨.eof, 5⟩]
    let last := tokens.findIdx fun t => t.terminal = .eof
    let r := parse 5 (start tokens .empty)
    tokens.getLast?.map Token.terminal = some .eof ∧ tokens.length ≤ 5 ∧ last = 2 ∧ r.2.Bounded last ∧
      r.1 = .ok 0 := by
  intro tokens last r
  obtain ⟨-, hbounded, hresult, -, -, -, hcut⟩ := parse_bounded.1 tokens .empty 5 rfl (by decide)
  have hgroup : Derives maxNesting .exp [⟨.symbol .openParen, 1⟩, ⟨.symbol .closeParen, 2⟩] (.number 0) :=
    .ofFactor (@Derives.emptyGroup 99 1 2) (by rintro (h | h) <;> cases h)
  have htake : tokens.take (last + 1) = [⟨.symbol .openParen, 1⟩, ⟨.symbol .closeParen, 2⟩] ++ [⟨.eof, 3⟩] := rfl
  rw [htake, Statement.run_expression hgroup 3 .empty] at hcut
  rw [← hcut] at hresult
  exact ⟨rfl, by decide, rfl, hbounded, hresult⟩

end Parser

end LineCalc
