/-
Recording reads exactly the phrases of the grammar and builds their trees.

`Reads room p w` says that the walk `w` and the phrases of kind `p` belong together: what `w` takes off the front is a
phrase with the tree that `w` built, and `w` takes a phrase as a whole where nothing follows that could make it longer
(`Stops`). Each construct turns walks that read the parts of a phrase into one that reads the phrase. The parentheses
that may still be opened carry the induction (`factor_reads`).

Results:
- `expressionIn_reads`: the walk of expressions reads the expressions of the grammar;
- `Derives.unique`: a phrase has one tree;
- `expressionAt_tree_iff`: recording from the beginning of a line reads all of it if and only if it is an expression,
  and the tree is the one that the grammar gives.
-/
import LineCalc.Proofs.Grammar

namespace LineCalc

/-! ## How tight operators bind -/

def Level.strength : Level → Nat
  | bitOr => 1
  | bitXor => 2
  | bitAnd => 3
  | shift => 4
  | additive => 5
  | multiplicative => 6

def Phrase.strength : Phrase → Nat
  | .level l => l.strength
  | .exponent => 7
  | .factor => 8

/-- the strength of the operator that a terminal stands for, 0 if it is none -/
def Terminal.strength : Terminal → Nat
  | .symbol .bar => 1
  | .symbol .caret => 2
  | .symbol .ampersand => 3
  | .symbol .lessLess | .symbol .greaterGreater => 4
  | .symbol .plus | .symbol .minus => 5
  | .symbol .star | .symbol .slash | .symbol .percent => 6
  | .symbol .starStar => 7
  | _ => 0

theorem Terminal.strength_le (t : Terminal) : t.strength ≤ 7 := by
  unfold strength; split <;> omega

theorem Level.strength_part (l : Level) : l.part.strength = l.strength + 1 := by
  cases l <;> rfl

/-- the table that walks go by is the one of the grammar -/
theorem Level.operator?_eq_some_iff {l : Level} {t : Terminal} {op : Operator} :
    l.operator? t = some op ↔ ∃ s, t = .symbol s ∧ (s, op) ∈ l.operators := by
  cases t with
  | symbol s => cases l <;> cases s <;> simp [operator?, operators, eq_comm]
  | _ => cases l <;> simp [operator?]

theorem Level.strength_of_operator? {l : Level} {t : Terminal} {op : Operator} (h : l.operator? t = some op) :
    t.strength = l.strength := by
  obtain ⟨s, rfl, hs⟩ := operator?_eq_some_iff.1 h
  cases l <;> simp only [operators, List.mem_cons, Prod.mk.injEq, List.not_mem_nil, or_false] at hs
  all_goals rcases hs with ⟨rfl, -⟩ | ⟨rfl, -⟩ | ⟨rfl, -⟩
  all_goals rfl

/-- what follows cannot make a phrase of kind `p` longer -/
def Stops (p : Phrase) (rest : List Token) : Prop :=
  (current rest).terminal.strength < p.strength

/-- no operator, no longer phrase -/
theorem stops_of_strength {t : Token} (h : t.terminal.strength = 0) (rest : List Token) : Stops .exp (t :: rest) := by
  show t.terminal.strength < 1
  omega

theorem stops_eof (column : Nat) : Stops .exp [⟨.eof, column⟩] := stops_of_strength rfl []

theorem stops_factor (rest : List Token) : Stops .factor rest :=
  Nat.lt_succ_of_le (Terminal.strength_le _)

theorem Stops.part {l : Level} {rest : List Token} (h : Stops (.level l) rest) : Stops l.part rest := by
  have h' : (current rest).terminal.strength < l.strength := h
  unfold Stops
  rw [Level.strength_part]
  omega

theorem Stops.operator? {l : Level} {rest : List Token} (h : Stops (.level l) rest) :
    l.operator? (current rest).terminal = none := by
  cases hop : l.operator? (current rest).terminal with
  | none => rfl
  | some op => exact absurd (Level.strength_of_operator? hop) (Nat.ne_of_lt h)

/-- an operator of a level ends the operand before it -/
theorem stops_part_of_mem {l : Level} {s : Symbol} {op : Operator} (h : (s, op) ∈ l.operators) (column : Nat)
    (rest : List Token) : Stops l.part (⟨.symbol s, column⟩ :: rest) := by
  have hs := Level.strength_of_operator? (Level.operator?_eq_some_iff.2 ⟨s, rfl, h⟩)
  show (Terminal.symbol s).strength < l.part.strength
  rw [Level.strength_part]
  omega

/-! ## Walks and phrases -/

/-- a walk that reads the phrases of one kind -/
structure Reads (room : Nat) (p : Phrase) (w : Walk Expr) : Prop where
  sound : ∀ {tokens e rest}, w.run tokens = .ok (e, rest) → ∃ ts, tokens = ts ++ rest ∧ Derives room p ts e
  complete : ∀ {ts e rest}, Derives room p ts e → Stops p rest → w.run (ts ++ rest) = .ok (e, rest)

namespace Walk

variable {room : Nat} {l : Level} {w : Walk Expr}

/-! ## Levels -/

/-- the walk of a level whose operands `part` reads -/
def ofLevel (part : Walk Expr) : Level → Walk Expr
  | .additive => sum .tree part
  | l => chain .tree l part

theorem ofLevel_of_ne (hl : l ≠ .additive) : ofLevel w l = chain .tree l w := by
  cases l <;> first | rfl | exact absurd rfl hl

theorem run_sign_minus (column : Nat) (tokens : List Token) :
    sign.run (⟨.symbol .minus, column⟩ :: tokens) = .ok (true, tokens) := rfl

theorem run_sign_plus (column : Nat) (tokens : List Token) :
    sign.run (⟨.symbol .plus, column⟩ :: tokens) = .ok (false, tokens) := rfl

theorem run_sign_of_not_isSign {tokens : List Token} (h : ¬ (current tokens).IsSign) :
    sign.run tokens = .ok (false, tokens) := by
  have hp : (current tokens).terminal ≠ .symbol .plus := fun hp => h (Or.inl hp)
  have hm : (current tokens).terminal ≠ .symbol .minus := fun hm => h (Or.inr hm)
  have hminus : (accept (.symbol .minus)).run tokens = .ok (false, tokens) := by rw [run_accept, if_neg hm]
  have hplus : (accept (.symbol .plus)).run tokens = .ok (false, tokens) := by rw [run_accept, if_neg hp]
  rw [sign, run_bind_of_ok hminus]
  exact run_bind_of_ok hplus _

theorem foldRun_sound (hw : Reads room l.part w) {ts : List Token} {left : Expr}
    (hl : Derives room (.level l) ts left) {tokens rest : List Token} {e : Expr}
    (h : foldRun .tree l w left tokens = .ok (e, rest)) :
    ∃ us, tokens = us ++ rest ∧ Derives room (.level l) (ts ++ us) e := by
  induction hn : tokens.length using Nat.strongRecOn generalizing ts left tokens with
  | _ n ih =>
    subst hn
    cases hop : l.operator? (current tokens).terminal with
    | none =>
      rw [foldRun_of_none hop] at h
      cases h
      exact ⟨[], rfl, by rwa [List.append_nil]⟩
    | some op =>
      obtain ⟨s, hs, hmem⟩ := Level.operator?_eq_some_iff.1 hop
      obtain ⟨column, tail, rfl⟩ := exists_cons_of_terminal hs (by simp)
      have hop : l.operator? (.symbol s) = some op := hop
      rw [foldRun_of_some hop] at h
      cases hr : w.run tail with
      | error d => rw [hr] at h; cases h
      | ok r =>
        obtain ⟨right, mid⟩ := r
        rw [hr] at h
        obtain ⟨us, rfl, hu⟩ := hw.sound hr
        have hlt : mid.length < (⟨.symbol s, column⟩ :: (us ++ mid) : List Token).length := by
          rw [List.length_cons, List.length_append]; omega
        obtain ⟨vs, rfl, hv⟩ : ∃ vs, mid = vs ++ rest ∧ _ := ih mid.length hlt (.join hmem hl hu) h rfl
        refine ⟨⟨.symbol s, column⟩ :: (us ++ vs), ?_, ?_⟩
        · simp
        · simpa using hv

theorem sum_sound (hw : Reads room (.level .multiplicative) w) {tokens rest : List Token} {e : Expr}
    (h : (sum .tree w).run tokens = .ok (e, rest)) :
    ∃ ts, tokens = ts ++ rest ∧ Derives room (.level .additive) ts e := by
  -- whatever the sign, the first term is a phrase and the rest is a fold after it
  have hrest : ∀ {negative mid}, sign.run tokens = .ok (negative, mid) → ∃ ts first after,
      mid = ts ++ after ∧ Derives room (.level .multiplicative) ts first ∧
        foldRun .tree .additive w (if negative then .negate first else first) after = .ok (e, rest) := by
    intro negative mid hs
    rw [sum, run_bind_of_ok hs] at h
    obtain ⟨first, after, hfirst, hfold⟩ := run_bind_eq_ok h
    obtain ⟨ts, hts, ht⟩ := hw.sound hfirst
    exact ⟨ts, first, after, hts, ht, hfold⟩
  by_cases hsign : (current tokens).IsSign
  · rcases hsign with hp | hm
    · obtain ⟨column, tail, rfl⟩ := exists_cons_of_terminal hp (by simp)
      obtain ⟨ts, first, after, rfl, ht, hfold⟩ := hrest (run_sign_plus column _)
      obtain ⟨us, rfl, hu⟩ := foldRun_sound hw (@Derives.plus room column ts first ht) hfold
      exact ⟨_, by simp, hu⟩
    · obtain ⟨column, tail, rfl⟩ := exists_cons_of_terminal hm (by simp)
      obtain ⟨ts, first, after, rfl, ht, hfold⟩ := hrest (run_sign_minus column _)
      obtain ⟨us, rfl, hu⟩ := foldRun_sound hw (@Derives.minus room column ts first ht) hfold
      exact ⟨_, by simp, hu⟩
  · obtain ⟨ts, first, after, rfl, ht, hfold⟩ := hrest (run_sign_of_not_isSign hsign)
    rw [current_append ht.opensOperand.ne_eof] at hsign
    obtain ⟨us, rfl, hu⟩ := foldRun_sound hw (.unsigned ht hsign) hfold
    exact ⟨_, by simp, hu⟩

theorem ofLevel_sound (hw : Reads room l.part w) {tokens rest : List Token} {e : Expr}
    (h : (ofLevel w l).run tokens = .ok (e, rest)) :
    ∃ ts, tokens = ts ++ rest ∧ Derives room (.level l) ts e := by
  by_cases hl : l = .additive
  · subst hl
    exact sum_sound hw h
  · rw [ofLevel_of_ne hl] at h
    obtain ⟨first, mid, hfirst, hfold⟩ := run_bind_eq_ok h
    obtain ⟨ts, rfl, ht⟩ := hw.sound hfirst
    obtain ⟨us, rfl, hu⟩ := foldRun_sound hw (.single hl ht) hfold
    exact ⟨ts ++ us, by simp, hu⟩

/-- a phrase of a level is read up to the fold that goes on after it -/
theorem ofLevel_run (hw : Reads room l.part w) {ts : List Token} {e : Expr} (h : Derives room (.level l) ts e)
    {rest : List Token} (hrest : Stops l.part rest) :
    (ofLevel w l).run (ts ++ rest) = foldRun .tree l w e rest := by
  generalize hp : Phrase.level l = p at h
  induction h generalizing rest with
  | single hl h =>
    cases hp
    rw [ofLevel_of_ne hl]
    exact run_bind_of_ok (hw.complete h hrest) _
  | unsigned h hs =>
    cases hp
    rw [← current_append h.opensOperand.ne_eof rest] at hs
    rw [ofLevel, sum, run_bind_of_ok (run_sign_of_not_isSign hs)]
    exact run_bind_of_ok (hw.complete h hrest) _
  | plus h =>
    cases hp
    rw [ofLevel, sum, List.cons_append, run_bind_of_ok (run_sign_plus _ _)]
    exact run_bind_of_ok (hw.complete h hrest) _
  | minus h =>
    cases hp
    rw [ofLevel, sum, List.cons_append, run_bind_of_ok (run_sign_minus _ _)]
    exact run_bind_of_ok (hw.complete h hrest) _
  | @join room column l' s op ts us left right hmem _ hu ih _ =>
    cases hp
    have hop : l.operator? (.symbol s) = some op := Level.operator?_eq_some_iff.2 ⟨s, rfl, hmem⟩
    rw [List.append_assoc, List.cons_append, ih hw (stops_part_of_mem hmem column _) rfl, foldRun_of_some hop,
      hw.complete hu hrest]
    rfl
  | _ => cases hp

theorem ofLevel_reads (hw : Reads room l.part w) : Reads room (.level l) (ofLevel w l) where
  sound := ofLevel_sound hw
  complete h hrest := by rw [ofLevel_run hw h hrest.part, foldRun_of_none hrest.operator?]

/-! ## Powers -/

theorem power_reads (hw : Reads room .factor w) : Reads room .exponent (power .tree w) where
  sound {tokens e rest} h := by
    obtain ⟨b, mid, hbase, hpower⟩ := run_bind_eq_ok h
    obtain ⟨ts, hts, ht⟩ := hw.sound hbase
    rw [run_peek_bind] at hpower
    split at hpower
    next hstar =>
      obtain ⟨column, tail, rfl⟩ := exists_cons_of_terminal hstar (by simp)
      obtain ⟨_, _, hadvance, hpower⟩ := run_bind_eq_ok hpower
      cases hadvance
      obtain ⟨x, after, hexp, hlift⟩ := run_bind_eq_ok hpower
      obtain ⟨us, hus, hu⟩ := hw.sound hexp
      cases hlift
      refine ⟨_, ?_, @Derives.power room column ts us b x ht hu⟩
      rw [hts, show tail = us ++ rest from hus]
      simp
    next =>
      cases hpower
      exact ⟨ts, hts, .base ht⟩
  complete {ts e rest} h hrest := by
    cases h with
    | base h =>
      have hstar : (current rest).terminal ≠ .symbol .starStar := fun hstar => by
        unfold Stops at hrest; rw [hstar] at hrest; exact absurd hrest (by decide)
      rw [power, run_bind_of_ok (hw.complete h (stops_factor rest)), run_peek_bind, if_neg hstar]
      rfl
    | @power _ column ts us b x hb hx =>
      rw [List.append_assoc, power, run_bind_of_ok (hw.complete hb (stops_factor _)), run_peek_bind]
      exact run_bind_of_ok (hw.complete hx (stops_factor rest)) _

/-! ## Operands -/

theorem oddMinus_cons_minus (column : Nat) (signs : List Token) :
    oddMinus (⟨.symbol .minus, column⟩ :: signs) = !oddMinus signs := by
  simp only [oddMinus, List.countP_cons, decide_true, if_true]
  rcases Nat.mod_two_eq_zero_or_one (signs.countP fun t => t.terminal = .symbol .minus) with h | h <;>
    simp [Nat.add_mod, h]

theorem oddMinus_cons_plus (column : Nat) (signs : List Token) :
    oddMinus (⟨.symbol .plus, column⟩ :: signs) = oddMinus signs := by
  simp [oddMinus]

/-- the signs at the front, told apart from what follows them -/
theorem signs_split (tokens : List Token) :
    ∃ ss, tokens = ss ++ (signs tokens).2 ∧ (∀ t ∈ ss, t.IsSign) ∧ (signs tokens).1 = oddMinus ss := by
  induction tokens with
  | nil => exact ⟨[], rfl, by simp, rfl⟩
  | cons t tokens ih =>
    obtain ⟨ss, hss, hs, hodd⟩ := ih
    obtain ⟨terminal, column⟩ := t
    unfold signs
    split
    next hm =>
      cases hm
      refine ⟨⟨.symbol .minus, column⟩ :: ss, ?_, ?_, ?_⟩
      · simp only [List.cons_append]; rw [← hss]
      · simpa using ⟨Or.inr rfl, hs⟩
      · rw [oddMinus_cons_minus, ← hodd]
    next hp =>
      cases hp
      refine ⟨⟨.symbol .plus, column⟩ :: ss, ?_, ?_, ?_⟩
      · simp only [List.cons_append]; rw [← hss]
      · simpa using ⟨Or.inl rfl, hs⟩
      · rw [oddMinus_cons_plus, ← hodd]
    next => exact ⟨[], rfl, by simp, rfl⟩

theorem signs_of_not_isSign {tokens : List Token} (h : ¬ (current tokens).IsSign) :
    signs tokens = (false, tokens) := by
  cases tokens with
  | nil => rfl
  | cons t tokens =>
    unfold signs
    split
    next hm => exact absurd (Or.inr hm) h
    next hp => exact absurd (Or.inl hp) h
    next => rfl

theorem signs_append {ss rest : List Token} (hs : ∀ t ∈ ss, t.IsSign) (hrest : ¬ (current rest).IsSign) :
    signs (ss ++ rest) = (oddMinus ss, rest) := by
  induction ss with
  | nil => exact signs_of_not_isSign hrest
  | cons t ss ih =>
    have ih := ih fun t ht => hs t (List.mem_cons_of_mem _ ht)
    obtain ⟨terminal, c⟩ := t
    rcases hs _ List.mem_cons_self with hp | hm
    · cases hp
      rw [oddMinus_cons_plus, ← ih]
      rfl
    · cases hm
      rw [oddMinus_cons_minus, List.cons_append, signs, ih]

theorem signedNumber_sound {tokens rest : List Token} {e : Expr}
    (h : (signedNumber .tree).run tokens = .ok (e, rest)) :
    ∃ ts, tokens = ts ++ rest ∧ Derives room .factor ts e := by
  obtain ⟨ss, hss, hs, hodd⟩ := signs_split tokens
  obtain ⟨negative, mid, hsigns, h⟩ := run_bind_eq_ok h
  rw [Except.ok.inj hsigns] at hss hodd
  rw [run_peek_bind] at h
  split at h
  next v hv =>
    obtain ⟨column, tail, rfl⟩ := exists_cons_of_terminal hv (by simp)
    cases h
    refine ⟨ss ++ [⟨.number v, column⟩], ?_, ?_⟩
    · rw [List.append_assoc]
      exact hss
    · rw [show negative = oddMinus ss from hodd]
      exact .number hs
  next => cases h

theorem signedNumber_complete {ss : List Token} (hs : ∀ t ∈ ss, t.IsSign) (v : Int64) (column : Nat)
    (rest : List Token) :
    (signedNumber .tree).run (ss ++ ⟨.number v, column⟩ :: rest) =
      .ok (.number (if oddMinus ss then -v else v), rest) := by
  have hsigns : signRun.run (ss ++ ⟨.number v, column⟩ :: rest) = .ok (oddMinus ss, ⟨.number v, column⟩ :: rest) :=
    congrArg _ (signs_append hs (by rintro (h | h) <;> cases h))
  rw [signedNumber, run_bind_of_ok hsigns]
  rfl

/-- what may stand in parentheses where `room` of them may be opened -/
inductive Inside : Nat → Option (Walk Expr) → Prop
  | none : Inside 0 none
  | some {room : Nat} {w : Walk Expr} : Reads room .exp w → Inside (room + 1) (some w)

theorem group_sound (hw : Reads room .exp w) {opening : Nat} {tokens rest : List Token} {e : Expr}
    (h : (group .tree w opening).run tokens = .ok (e, rest)) :
    ∃ ts, ⟨.symbol .openParen, opening⟩ :: tokens = ts ++ rest ∧ Derives (room + 1) .factor ts e := by
  obtain ⟨a, mid, hinner, h⟩ := run_bind_eq_ok h
  obtain ⟨closed, after, haccept, h⟩ := run_bind_eq_ok h
  rw [run_accept] at haccept
  split at haccept
  next hclose =>
    obtain ⟨column, tail, rfl⟩ := exists_cons_of_terminal hclose (by simp)
    cases haccept
    cases h
    rw [orEmpty, run_peek_bind] at hinner
    split at hinner
    next =>
      cases hinner
      exact ⟨_, rfl, @Derives.emptyGroup room opening column⟩
    next =>
      obtain ⟨ts, rfl, ht⟩ := hw.sound hinner
      exact ⟨_, by simp, @Derives.group room opening column ts e ht⟩
  next =>
    cases haccept
    cases h

theorem group_complete (hw : Reads room .exp w) {ts : List Token} {e : Expr} (h : Derives room .exp ts e)
    (opening closing : Nat) (rest : List Token) :
    (group .tree w opening).run (ts ++ ⟨.symbol .closeParen, closing⟩ :: rest) = .ok (e, rest) := by
  have hstop : Stops .exp (⟨.symbol .closeParen, closing⟩ :: rest) := stops_of_strength rfl rest
  -- an expression does not begin with a `)`, so the group is not taken for an empty one
  have hclose : (current (ts ++ ⟨.symbol .closeParen, closing⟩ :: rest)).terminal ≠ .symbol .closeParen := by
    rw [current_append h.opensOperand.ne_eof]
    intro hc
    have hopens := h.opensOperand
    rw [hc] at hopens
    exact hopens
  have hinner : (orEmpty .tree w).run (ts ++ ⟨.symbol .closeParen, closing⟩ :: rest) =
      .ok (e, ⟨.symbol .closeParen, closing⟩ :: rest) := by
    rw [orEmpty, run_peek_bind, if_neg hclose]
    exact hw.complete h hstop
  exact run_bind_of_ok hinner _

theorem operand_sound {inner : Option (Walk Expr)} (hin : Inside room inner) {tokens rest : List Token} {e : Expr}
    (h : (operand .tree inner).run tokens = .ok (e, rest)) :
    ∃ ts, tokens = ts ++ rest ∧ Derives room .factor ts e := by
  rw [operand, run_peek_bind] at h
  split at h
  next hopen =>
    obtain ⟨column, tail, rfl⟩ := exists_cons_of_terminal hopen (by simp)
    cases hin with
    | none => cases h
    | some hw => exact group_sound hw h
  next => cases h
  next name hname =>
    obtain ⟨column, tail, rfl⟩ := exists_cons_of_terminal hname (by simp)
    cases h
    exact ⟨_, rfl, .identifier⟩
  next => exact signedNumber_sound h

theorem operand_complete {inner : Option (Walk Expr)} (hin : Inside room inner) {ts : List Token} {e : Expr}
    (h : Derives room .factor ts e) (rest : List Token) : (operand .tree inner).run (ts ++ rest) = .ok (e, rest) := by
  cases h with
  | @group room opening closing ts e h =>
    cases hin with
    | some hw =>
      rw [List.cons_append, List.append_assoc]
      exact group_complete hw h opening closing rest
  | emptyGroup =>
    cases hin with
    | some hw => rfl
  | identifier => rfl
  | @number _ column v ss hs =>
    have hnumber := signedNumber_complete hs v column rest
    rw [List.append_assoc, List.singleton_append]
    -- an operand that begins with a number or a sign is a signed number
    cases ss with
    | nil => exact hnumber
    | cons t ss =>
      obtain ⟨terminal, c⟩ := t
      rcases hs _ List.mem_cons_self with hp | hm
      · cases hp; exact hnumber
      · cases hm; exact hnumber

/-! ## Expressions -/

theorem levels_reads (hw : Reads room .factor w) : Reads room .exp (levels .tree w) := by
  have hterm : Reads room (.level .multiplicative) (chain .tree .multiplicative (power .tree w)) :=
    ofLevel_reads (power_reads hw)
  have hsum : Reads room (.level .additive) _ := ofLevel_reads hterm
  have hshift : Reads room (.level .shift) _ := ofLevel_reads hsum
  have hand : Reads room (.level .bitAnd) _ := ofLevel_reads hshift
  have hxor : Reads room (.level .bitXor) _ := ofLevel_reads hand
  exact ofLevel_reads hxor

theorem operand_reads {inner : Option (Walk Expr)} (hin : Inside room inner) :
    Reads room .factor (operand .tree inner) :=
  ⟨operand_sound hin, fun h _ => operand_complete hin h _⟩

theorem factor_reads (room : Nat) : Reads room .factor (factor .tree room) := by
  induction room with
  | zero => exact operand_reads .none
  | succ room ih => exact operand_reads (.some (levels_reads ih))

theorem expressionIn_reads (room : Nat) : Reads room .exp (expressionIn .tree room) :=
  levels_reads (factor_reads room)

end Walk

/-! ## Main results -/

/-- a phrase has one tree -/
theorem Derives.unique {room : Nat} {ts : List Token} {e e' : Expr} (h : Derives room .exp ts e)
    (h' : Derives room .exp ts e') : e = e' := by
  have hstop : Stops .exp [] := Nat.zero_lt_one
  have hrun := (Walk.expressionIn_reads room).complete h hstop
  rw [(Walk.expressionIn_reads room).complete h' hstop] at hrun
  exact (Prod.mk.inj (Except.ok.inj hrun)).1.symm

namespace Walk

theorem expressionAt_zero {α : Type} (m : Meaning α) (tokens : List Token) :
    expressionAt m tokens 0 0 =
      ((expression m).run tokens).map fun r => (r.1, tokens.length - r.2.length) := by
  simp [expressionAt, opensAt, expressionAfter, expression]

/-- **Recording recognises the expressions of the grammar and builds their trees.** From the beginning of a line, it
succeeds with a tree and stops at the end of the line if and only if the tokens before the end derive that tree. No
tokens derive two trees. -/
theorem expressionAt_tree_iff (ts : List Token) (column : Nat) :
    (∀ e, expressionAt .tree (ts ++ [⟨.eof, column⟩]) 0 0 = .ok (e, ts.length) ↔ Derives maxNesting .exp ts e) ∧
      ∀ e e', Derives maxNesting .exp ts e → Derives maxNesting .exp ts e' → e = e' := by
  refine ⟨fun e => ⟨fun h => ?_, fun h => ?_⟩, fun e e' => Derives.unique⟩
  · rw [expressionAt_zero] at h
    cases hr : (expression .tree).run (ts ++ [⟨.eof, column⟩]) with
    | error d => rw [hr] at h; cases h
    | ok r =>
      obtain ⟨e', rest⟩ := r
      rw [hr] at h
      obtain ⟨rfl, hlen⟩ := Prod.mk.inj (Except.ok.inj h)
      obtain ⟨us, hus, hu⟩ := (expressionIn_reads maxNesting).sound hr
      have hcount := congrArg List.length hus
      simp only [List.length_append, List.length_singleton] at hcount hlen
      obtain ⟨rfl, -⟩ := List.append_inj hus (by omega)
      exact hu
  · have hrun : (expression .tree).run (ts ++ [⟨.eof, column⟩]) = .ok (e, [⟨.eof, column⟩]) :=
      (expressionIn_reads maxNesting).complete h (stops_eof column)
    rw [expressionAt_zero, hrun]
    simp [Except.map]

end Walk

end LineCalc
