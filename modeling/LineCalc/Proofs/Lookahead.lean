/-
Reading looks one token ahead, and what is read does not depend on what is built.

`Walk.Yields w us next r` says that `w` takes `us` and comes to `r`, whatever follows the token `next` after them. What
a reading comes to is the same for every meaning (`Ending`): a phrase with its tree, or a refusal after some operands,
one of which may raise a diagnostic of its own first (`Meaning.outcome`). `Fits` ties an ending to the grammar: the
tokens of a phrase derive its tree, and those of a refusal begin a phrase that the next token, or an open parenthesis,
is blamed for not being one.

Result:
- `expressionIn_settles`: on every list of tokens, the walks of expressions have such an ending, one for all meanings.
-/
import LineCalc.Proofs.Blame
import LineCalc.Proofs.Recording

namespace LineCalc

/-- with tokens in front, a look at the next one is a look at those, or else at what follows them -/
theorem current_append_congr (us : List Token) {rest rest' : List Token} (h : current rest = current rest') :
    current (us ++ rest) = current (us ++ rest') := by
  cases us with
  | nil => exact h
  | cons u us => rfl

/-! ## Endings -/

/-- what a reading comes to, apart from what is built -/
inductive Ending where
  | phrase (e : Expr)
  /-- a diagnostic after operands that were complete -/
  | refusal (operands : List Expr) (d : Diagnostic)

namespace Meaning

variable {α : Type}

/-- the first diagnostic that one of the operands raises, or else `d` -/
def first (m : Meaning α) (d : Diagnostic) : List Expr → Diagnostic
  | [] => d
  | e :: es =>
    match m.interpret e with
    | .ok _ => m.first d es
    | .error raised => raised

/-- what is made of an ending -/
def outcome (m : Meaning α) : Ending → Except Diagnostic α
  | .phrase e => m.interpret e
  | .refusal es d => .error (m.first d es)

theorem outcome_refusal_cons (m : Meaning α) (e : Expr) (es : List Expr) (d : Diagnostic) :
    m.outcome (.refusal (e :: es) d) = (m.interpret e).bind fun _ => m.outcome (.refusal es d) := by
  simp only [outcome, first]
  cases m.interpret e <;> rfl

end Meaning

/-- how an ending after `us`, before `next`, answers to the grammar -/
inductive Fits (room : Nat) (p : Phrase) (us : List Token) (next : Token) : Ending → Prop
  | phrase {e : Expr} : Derives room p us e → Fits room p us next (.phrase e)
  | refusal {es : List Expr} {d : Diagnostic} :
      Begins room p us → Blames room us next d → (∀ e ∈ es, e.WrittenIn us) →
      Fits room p us next (.refusal es d)

namespace Walk

variable {α β : Type} {room : Nat} {l : Level} {us vs after : List Token} {next : Token}

/-! ## What a walk yields -/

/-- `w` takes `us` and comes to `r`, whatever follows `next` -/
def Yields (w : Walk α) (us : List Token) (next : Token) (r : Except Diagnostic α) : Prop :=
  ∀ rest, current rest = next → w.run (us ++ rest) = r.map fun a => (a, rest)

/-- after an operand that comes to `r`, the walk that it calls for takes `us` and comes to `q` -/
def YieldsAfter (r : Except Diagnostic α) (f : α → Walk β) (us : List Token) (next : Token)
    (q : Except Diagnostic β) : Prop :=
  match r with
  | .ok a => Yields (f a) us next q
  | .error d => q = .error d

namespace Yields

theorem bind {w : Walk α} {f : α → Walk β} {r : Except Diagnostic α} {q : Except Diagnostic β}
    (hw : Yields w us (current (vs ++ after)) r) (hf : YieldsAfter r f vs (current after) q) :
    Yields (w >>= f) (us ++ vs) (current after) q := by
  intro rest hrest
  have hmid := hw (vs ++ rest) (current_append_congr vs hrest)
  rw [List.append_assoc]
  cases r with
  | error d =>
    rw [run_bind_of_error hmid]
    cases (hf : q = .error d)
    rfl
  | ok a => rw [run_bind_of_ok hmid]; exact hf rest hrest

/-- a walk that is refused ends everything after it -/
theorem bind_of_error {w : Walk α} {d : Diagnostic} (hw : Yields w us next (.error d)) (f : α → Walk β) :
    Yields (w >>= f) us next (.error d) :=
  fun rest hrest => run_bind_of_error (hw rest hrest) f

theorem pure (a : α) (next : Token) : Yields (Pure.pure a) [] next (.ok a) := fun _ _ => rfl

theorem lift (r : Except Diagnostic α) (next : Token) : Yields (lift r) [] next r := fun _ _ => rfl

theorem peek {f : Token → Walk β} {q : Except Diagnostic β}
    (h : Yields (f (current (us ++ after))) us (current after) q) : Yields (peek >>= f) us (current after) q := by
  intro rest hrest
  rw [run_peek_bind, current_append_congr us hrest]
  exact h rest hrest

theorem advance {f : Unit → Walk β} {q : Except Diagnostic β} (h : Yields (f ()) us next q) (t : Token) :
    Yields (advance >>= f) (t :: us) next q :=
  fun rest hrest => h rest hrest

end Yields

/-! ## Walks of phrases -/

/-- a walk for every meaning -/
abbrev Reader := (α : Type) → Meaning α → Walk α

/-- on every list of tokens, `w` comes to an ending that fits a phrase of kind `p`, whatever the meaning builds -/
def Settles (room : Nat) (p : Phrase) (w : Reader) : Prop :=
  ∀ tokens, ∃ us rest ending, tokens = us ++ rest ∧ Fits room p us (current rest) ending ∧
    ∀ (α : Type) (m : Meaning α), Yields (w α m) us (current rest) (m.outcome ending)

/-! ## Levels -/

section
variable {m : Meaning α} {w : Walk α} {op : Operator} {t : Token} {e : Expr}

/-- no operator of the level follows -/
theorem yieldsAfter_fold_of_none (h : l.operator? next.terminal = none) :
    YieldsAfter (m.interpret e) (fold m l w) [] next (m.interpret e) := by
  cases he : m.interpret e with
  | error d => rfl
  | ok a => exact fun rest hrest => foldRun_of_none (by rwa [List.nil_append, hrest])

/-- an operator follows, and the operand after it is refused -/
theorem yieldsAfter_fold_of_error {d : Diagnostic} {es : List Expr} (hop : l.operator? t.terminal = some op)
    (hw : Yields w us next (m.outcome (.refusal es d))) :
    YieldsAfter (m.interpret e) (fold m l w) (t :: us) next (m.outcome (.refusal (e :: es) d)) := by
  rw [Meaning.outcome_refusal_cons]
  cases m.interpret e with
  | error raised => rfl
  | ok a =>
    intro rest hrest
    show foldRun m l w a (t :: (us ++ rest)) = _
    rw [foldRun_of_some hop, hw rest hrest]
    rfl

/-- an operator and an operand follow, and the fold goes on after them -/
theorem yieldsAfter_fold_of_ok {x : Expr} {q : Except Diagnostic α} (hop : l.operator? t.terminal = some op)
    (hw : Yields w us (current (vs ++ after)) (m.interpret x))
    (hfold : YieldsAfter (m.interpret (.binary op e x t.column)) (fold m l w) vs (current after) q) :
    YieldsAfter (m.interpret e) (fold m l w) (t :: (us ++ vs)) (current after) q := by
  rw [Meaning.interpret] at hfold
  cases he : m.interpret e with
  | error d => rwa [he] at hfold
  | ok a =>
    intro rest hrest
    show foldRun m l w a (t :: (us ++ vs ++ rest)) = _
    rw [foldRun_of_some hop, List.append_assoc, hw (vs ++ rest) (current_append_congr vs hrest)]
    cases hx : m.interpret x with
    | error d =>
      rw [he, hx] at hfold
      cases (hfold : q = .error d)
      rfl
    | ok b =>
      simp only [he, hx, Except.bind] at hfold
      show (m.binary op a b t.column).bind _ = _
      cases hc : m.binary op a b t.column with
      | error d =>
        rw [hc] at hfold
        cases (hfold : q = .error d)
        rfl
      | ok c =>
        rw [hc] at hfold
        exact hfold rest hrest

end

/-- more operands after a first one, whose tree is `e` -/
theorem fold_settles {w : Reader} (hw : Settles room l.part w) {ts : List Token} {e : Expr}
    (ht : Derives room (.level l) ts e) (tokens : List Token) :
    ∃ us rest ending, tokens = us ++ rest ∧ Fits room (.level l) (ts ++ us) (current rest) ending ∧
      ∀ (α : Type) (m : Meaning α),
        YieldsAfter (m.interpret e) (fold m l (w α m)) us (current rest) (m.outcome ending) := by
  -- every turn takes an operator, so the length of what is left carries the induction
  induction hn : tokens.length using Nat.strongRecOn generalizing ts e tokens with
  | _ n ih =>
    subst hn
    cases hop : l.operator? (current tokens).terminal with
    | none =>
      have hfit : Fits room (.level l) (ts ++ []) (current tokens) (.phrase e) :=
        .phrase (by rwa [List.append_nil])
      exact ⟨[], tokens, .phrase e, rfl, hfit, fun α m => yieldsAfter_fold_of_none hop⟩
    | some op =>
      obtain ⟨s, hs, hmem⟩ := Level.operator?_eq_some_iff.1 hop
      obtain ⟨column, tail, rfl⟩ := exists_cons_of_terminal hs (by simp)
      obtain ⟨us, mid, ending, rfl, hfit, hyield⟩ := hw tail
      cases hfit with
      | @refusal es d hbegins hblames hes =>
        have hopens : Opens (ts ++ [⟨.symbol s, column⟩]) [] := by
          rw [Level.eq_symbol_of_mem hmem]
          exact ht.opens.append (.operator op column)
        have hblames' := hblames.after hopens
        rw [List.append_assoc] at hblames'
        refine ⟨⟨.symbol s, column⟩ :: us, mid, .refusal (e :: es) d, rfl,
          .refusal (hbegins.join hmem ht column) hblames' ?_, fun α m => yieldsAfter_fold_of_error hop (hyield α m)⟩
        refine List.forall_mem_cons.2 ⟨ht.writtenIn.mono (by simp), fun x hx => (hes x hx).mono ?_⟩
        intro t ht
        simp [ht]
      | @phrase x hx =>
        have hlt : mid.length < (⟨.symbol s, column⟩ :: (us ++ mid) : List Token).length := by
          rw [List.length_cons, List.length_append]; omega
        obtain ⟨vs, rest, ending, rfl, hfit, hfold⟩ := ih mid.length hlt (.join hmem ht hx) mid rfl
        exact ⟨⟨.symbol s, column⟩ :: (us ++ vs), rest, ending, by simp, by simpa using hfit,
          fun α m => yieldsAfter_fold_of_ok hop (hyield α m) (hfold α m)⟩

theorem chain_settles {w : Reader} (hl : l ≠ .additive) (hw : Settles room l.part w) :
    Settles room (.level l) fun α m => chain m l (w α m) := by
  intro tokens
  obtain ⟨us, mid, ending, rfl, hfit, hyield⟩ := hw tokens
  cases hfit with
  | refusal hbegins hblames hes =>
    exact ⟨us, mid, _, rfl, .refusal (hbegins.single hl) hblames hes, fun α m => (hyield α m).bind_of_error _⟩
  | phrase he =>
    obtain ⟨vs, rest, ending, rfl, hfit, hfold⟩ := fold_settles hw (.single hl he) mid
    exact ⟨us ++ vs, rest, ending, by simp, hfit, fun α m => (hyield α m).bind (hfold α m)⟩

/-! ## Sums -/

theorem yields_sign_minus (column : Nat) (next : Token) : Yields sign [⟨.symbol .minus, column⟩] next (.ok true) :=
  fun rest _ => run_sign_minus column rest

theorem yields_sign_plus (column : Nat) (next : Token) : Yields sign [⟨.symbol .plus, column⟩] next (.ok false) :=
  fun rest _ => run_sign_plus column rest

theorem yields_sign_of_not_isSign (h : ¬ next.IsSign) : Yields sign [] next (.ok false) :=
  fun rest hrest => @run_sign_of_not_isSign rest (by rwa [hrest])

/-- the sign before a sum applies to its first term -/
theorem yieldsAfter_signed {m : Meaning α} {f : α → Walk β} {e : Expr} {q : Except Diagnostic β} (negative : Bool)
    (h : YieldsAfter (m.interpret (if negative then .negate e else e)) f us next q) :
    YieldsAfter (m.interpret e) (fun a => f (if negative then m.negate a else a)) us next q := by
  cases negative with
  | false => exact h
  | true =>
    rw [if_pos rfl, Meaning.interpret] at h
    cases he : m.interpret e with
    | error d => rwa [he] at h
    | ok a => rwa [he] at h

/-- the terms of a sum after its sign, `ss` -/
theorem sum_settles_of_sign {w : Reader} (hw : Settles room (.level .multiplicative) w) {ss : List Token}
    {negative : Bool} (tokens : List Token) (hsign : Yields sign ss (current tokens) (.ok negative))
    (hopens : Opens ss []) (hbegins : Begins room (.level .additive) ss)
    (hsum : ∀ {ts e}, current ts = current tokens → Derives room (.level .multiplicative) ts e →
      Derives room (.level .additive) (ss ++ ts) (if negative then .negate e else e)) :
    ∃ us rest ending, ss ++ tokens = us ++ rest ∧ Fits room (.level .additive) us (current rest) ending ∧
      ∀ (α : Type) (m : Meaning α), Yields (sum m (w α m)) us (current rest) (m.outcome ending) := by
  obtain ⟨us, mid, ending, rfl, hfit, hyield⟩ := hw tokens
  cases hfit with
  | @refusal es d hterm hblames hes =>
    have hbegins : Begins room (.level .additive) (ss ++ us) := by
      cases us with
      | nil => rwa [List.append_nil]
      | cons u us =>
        obtain ⟨vs, e, he⟩ := hterm
        have hcurrent : current (u :: us ++ vs) = current (u :: us ++ mid) := rfl
        exact ⟨vs, _, by simpa using hsum hcurrent he⟩
    refine ⟨ss ++ us, mid, .refusal es d, by simp, .refusal hbegins (hblames.after hopens) ?_, fun α m => ?_⟩
    · exact fun x hx => (hes x hx).mono (List.subset_append_right _ _)
    · exact hsign.bind ((hyield α m).bind_of_error _)
  | @phrase e he =>
    have hcurrent : current us = current (us ++ mid) := (current_append he.opensOperand.ne_eof mid).symm
    obtain ⟨vs, rest, ending, rfl, hfit, hfold⟩ := fold_settles hw (hsum hcurrent he) mid
    refine ⟨ss ++ us ++ vs, rest, ending, by simp, hfit, fun α m => ?_⟩
    rw [← List.append_assoc] at hsign
    rw [List.append_assoc ss]
    exact hsign.bind ((hyield α m).bind (yieldsAfter_signed negative (hfold α m)))

theorem sum_settles {w : Reader} (hw : Settles room (.level .multiplicative) w) :
    Settles room (.level .additive) fun α m => sum m (w α m) := by
  intro tokens
  by_cases hsign : (current tokens).IsSign
  · rcases hsign with hp | hm
    · obtain ⟨column, tail, rfl⟩ := exists_cons_of_terminal hp (by simp)
      exact sum_settles_of_sign hw tail (yields_sign_plus column _) (.operator .add column)
        (.afterSign (Or.inl rfl) (.term room)) fun _ he => .plus he
    · obtain ⟨column, tail, rfl⟩ := exists_cons_of_terminal hm (by simp)
      exact sum_settles_of_sign hw tail (yields_sign_minus column _) (.operator .subtract column)
        (.afterSign (Or.inr rfl) (.term room)) fun _ he => .minus he
  · exact sum_settles_of_sign hw tokens (yields_sign_of_not_isSign hsign) .nil (.sum room)
      fun {ts e} hcurrent he => show Derives room _ ts e from .unsigned he (by rwa [hcurrent])

/-! ## Powers -/

section
variable (m : Meaning α) {w : Walk α} {b : Except Diagnostic α}

/-- an operand that is raised to no power -/
theorem yields_power_of_ne (hb : Yields w us next b) (h : next.terminal ≠ .symbol .starStar) :
    Yields (power m w) us next b := by
  intro rest hrest
  cases b with
  | error d => exact run_bind_of_error (hb rest hrest) _
  | ok a =>
    rw [power, run_bind_of_ok (hb rest hrest), run_peek_bind, if_neg (by rwa [hrest])]
    rfl

theorem yields_power {x : Except Diagnostic α} {column : Nat}
    (hb : Yields w us ⟨.symbol .starStar, column⟩ b) (hx : Yields w vs next x) :
    Yields (power m w) (us ++ ⟨.symbol .starStar, column⟩ :: vs) next
      (b.bind fun base => x.bind fun exponent => m.binary .power base exponent column) := by
  intro rest hrest
  rw [List.append_assoc]
  cases b with
  | error d => exact run_bind_of_error (hb _ rfl) _
  | ok base =>
    have hpower : (power m w).run (us ++ (⟨.symbol .starStar, column⟩ :: vs ++ rest)) =
        (w >>= fun exponent => lift (m.binary .power base exponent column)).run (vs ++ rest) :=
      run_bind_of_ok (hb _ rfl) _
    rw [hpower, run_bind, hx rest hrest]
    cases x <;> rfl

end

theorem power_settles {w : Reader} (hw : Settles room .factor w) :
    Settles room .exponent fun α m => power m (w α m) := by
  intro tokens
  obtain ⟨us, mid, ending, rfl, hfit, hyield⟩ := hw tokens
  cases hfit with
  | refusal hbegins hblames hes =>
    exact ⟨us, mid, _, rfl, .refusal hbegins.base hblames hes, fun α m => (hyield α m).bind_of_error _⟩
  | @phrase b hb =>
    by_cases hstar : (current mid).terminal = .symbol .starStar
    · obtain ⟨column, tail, rfl⟩ := exists_cons_of_terminal hstar (by simp)
      obtain ⟨vs, rest, ending, rfl, hfit, hpower⟩ := hw tail
      have hyield' := fun α (m : Meaning α) => yields_power m (hyield α m) (hpower α m)
      cases hfit with
      | @refusal es d hbegins hblames hes =>
        have hopens : Opens (us ++ [⟨.symbol .starStar, column⟩]) [] := hb.opens.append (.operator .power column)
        have hblames' := hblames.after hopens
        rw [List.append_assoc] at hblames'
        refine ⟨us ++ ⟨.symbol .starStar, column⟩ :: vs, rest, .refusal (b :: es) d, by simp,
          .refusal (hbegins.power hb column) hblames' ?_, fun α m => ?_⟩
        · refine List.forall_mem_cons.2 ⟨hb.writtenIn.mono (by simp), fun x hx => (hes x hx).mono ?_⟩
          intro t ht
          simp [ht]
        · rw [Meaning.outcome_refusal_cons]
          exact hyield' α m
      | @phrase x hx =>
        exact ⟨us ++ ⟨.symbol .starStar, column⟩ :: vs, rest, .phrase (.binary .power b x column), by simp,
          .phrase (hb.power hx), hyield'⟩
    · exact ⟨us, mid, .phrase b, rfl, .phrase (.base hb), fun α m => yields_power_of_ne m (hyield α m) hstar⟩

/-! ## Operands -/

theorem exists_signs (tokens : List Token) :
    ∃ ss rest, tokens = ss ++ rest ∧ (∀ t ∈ ss, t.IsSign) ∧ ¬ (current rest).IsSign := by
  induction tokens with
  | nil => exact ⟨[], [], rfl, List.forall_mem_nil _, by rintro (h | h) <;> cases h⟩
  | cons t tokens ih =>
    by_cases ht : t.IsSign
    · obtain ⟨ss, rest, rfl, hs, hrest⟩ := ih
      exact ⟨t :: ss, rest, rfl, List.forall_mem_cons.2 ⟨ht, hs⟩, hrest⟩
    · exact ⟨[], t :: tokens, rfl, List.forall_mem_nil _, ht⟩

theorem signedNumber_settles (room : Nat) : Settles room .factor fun _ m => signedNumber m := by
  intro tokens
  obtain ⟨ss, rest, rfl, hs, hsign⟩ := exists_signs tokens
  have hrun : Yields signRun ss (current rest) (.ok (oddMinus ss)) := fun after hafter =>
    congrArg _ (signs_append hs (by rwa [hafter]))
  by_cases hnumber : ∃ v, (current rest).terminal = .number v
  · obtain ⟨v, hv⟩ := hnumber
    obtain ⟨column, tail, rfl⟩ := exists_cons_of_terminal hv (by simp)
    refine ⟨ss ++ [⟨.number v, column⟩], tail, _, by simp, .phrase (.number hs), fun α m => ?_⟩
    refine hrun.bind ?_
    exact fun _ _ => rfl
  · refine ⟨ss, rest, .refusal [] (.mismatch "Number" (current rest).terminal.name (current rest).column), rfl,
      .refusal (.signs room hs) (.mismatch _) (List.forall_mem_nil _), fun α m after hafter => ?_⟩
    show (signedNumber m).run (ss ++ after) = _
    rw [signedNumber, run_bind_of_ok (hrun after hafter), run_peek_bind, hafter]
    split
    next v hv => exact absurd ⟨v, hv⟩ hnumber
    next => rfl

/-! ## Groups -/

theorem yields_orEmpty (m : Meaning α) {w : Walk α} {r : Except Diagnostic α} (h : Yields w us (current after) r)
    (hclose : (current (us ++ after)).terminal ≠ .symbol .closeParen) : Yields (orEmpty m w) us (current after) r :=
  .peek (by rwa [if_neg hclose])

/-- what stands in a group after its parenthesis -/
theorem group_settles {w : Reader} (hw : Settles room .exp w) (opening : Nat) (tokens : List Token) :
    ∃ us rest ending, tokens = us ++ rest ∧
      Fits (room + 1) .factor (⟨.symbol .openParen, opening⟩ :: us) (current rest) ending ∧
      ∀ (α : Type) (m : Meaning α), Yields (group m (w α m) opening) us (current rest) (m.outcome ending) := by
  by_cases hempty : (current tokens).terminal = .symbol .closeParen
  · obtain ⟨column, tail, rfl⟩ := exists_cons_of_terminal hempty (by simp)
    exact ⟨[⟨.symbol .closeParen, column⟩], tail, .phrase (.number 0), rfl, .phrase .emptyGroup, fun _ _ _ _ => rfl⟩
  obtain ⟨us, mid, ending, rfl, hfit, hyield⟩ := hw tokens
  have hinner := fun α m => yields_orEmpty m (hyield α m) hempty
  cases hfit with
  | refusal hbegins hblames hes =>
    exact ⟨us, mid, _, rfl, .refusal (hbegins.inGroup opening) (hblames.inGroup opening)
      fun e he => (hes e he).mono (List.subset_cons_self _ _), fun α m => (hinner α m).bind_of_error _⟩
  | @phrase e he =>
    by_cases hclose : (current mid).terminal = .symbol .closeParen
    · obtain ⟨column, tail, rfl⟩ := exists_cons_of_terminal hclose (by simp)
      refine ⟨us ++ [⟨.symbol .closeParen, column⟩], tail, .phrase e, by simp, .phrase he.group, fun α m => ?_⟩
      refine (hinner α m).bind ?_
      rw [Meaning.outcome]
      cases m.interpret e with
      | error d => rfl
      | ok a => exact fun _ _ => rfl
    · refine ⟨us, mid, .refusal [e] (.unmatched .closing opening), rfl, .refusal (he.begins.inGroup opening)
        (.unclosed (he.opens.inGroup opening)) ?_, fun α m => ?_⟩
      · exact List.forall_mem_singleton.2 (he.writtenIn.mono (List.subset_cons_self _ _))
      · intro rest hrest
        rw [Meaning.outcome_refusal_cons, group, run_bind, hinner α m rest hrest, Meaning.outcome]
        cases m.interpret e with
        | error d => rfl
        | ok a =>
          have haccept : (accept (.symbol .closeParen)).run rest = .ok (false, rest) := by
            rw [run_accept, hrest, if_neg hclose]
          exact run_bind_of_ok haccept _

/-- what may stand in parentheses where `room` of them may be opened -/
inductive Inner : Nat → ((α : Type) → Meaning α → Option (Walk α)) → Prop
  | none : Inner 0 fun _ _ => none
  | some {room : Nat} {w : Reader} : Settles room .exp w → Inner (room + 1) fun α m => some (w α m)

theorem operand_settles {inner : (α : Type) → Meaning α → Option (Walk α)} (hin : Inner room inner) :
    Settles room .factor fun α m => operand m (inner α m) := by
  intro tokens
  by_cases hopen : (current tokens).terminal = .symbol .openParen
  · obtain ⟨column, tail, rfl⟩ := exists_cons_of_terminal hopen (by simp)
    cases hin with
    | none =>
      refine ⟨[], _, .refusal [] (.nestingTooDeep maxNesting column), rfl,
        .refusal (.signs 0 (List.forall_mem_nil _)) (.tooDeep rfl .nil rfl) (List.forall_mem_nil _), fun α m => ?_⟩
      exact .peek fun _ _ => rfl
    | some hw =>
      obtain ⟨us, rest, ending, rfl, hfit, hyield⟩ := group_settles hw column tail
      exact ⟨⟨.symbol .openParen, column⟩ :: us, rest, ending, rfl, hfit, fun α m => hyield α m⟩
  by_cases hclose : (current tokens).terminal = .symbol .closeParen
  · obtain ⟨column, tail, rfl⟩ := exists_cons_of_terminal hclose (by simp)
    refine ⟨[], _, .refusal [] (.unmatched .opening column), rfl,
      .refusal (.signs room (List.forall_mem_nil _)) (.unopened rfl) (List.forall_mem_nil _), fun α m => ?_⟩
    exact .peek fun _ _ => rfl
  by_cases hname : ∃ name, (current tokens).terminal = .identifier name
  · obtain ⟨name, hname⟩ := hname
    obtain ⟨column, tail, rfl⟩ := exists_cons_of_terminal hname (by simp)
    exact ⟨[⟨.identifier name, column⟩], tail, .phrase (.identifier name column), rfl, .phrase .identifier,
      fun α m => .peek (.advance (.lift _ _) _)⟩
  -- anything else is taken for a number
  obtain ⟨us, rest, ending, rfl, hfit, hyield⟩ := signedNumber_settles room tokens
  refine ⟨us, rest, ending, rfl, hfit, fun α m => .peek ?_⟩
  split
  next h => exact absurd h hopen
  next h => exact absurd h hclose
  next name h => exact absurd ⟨name, h⟩ hname
  next => exact hyield α m

/-! ## Expressions -/

theorem levels_settles {w : Reader} (hw : Settles room .factor w) :
    Settles room .exp fun α m => levels m (w α m) := by
  have hterm : Settles room (.level .multiplicative) fun α m => chain m .multiplicative (power m (w α m)) :=
    chain_settles (by decide) (power_settles hw)
  have hsum : Settles room (.level .additive) fun α m => sum m _ := sum_settles hterm
  have hshift : Settles room (.level .shift) fun α m => chain m .shift _ := chain_settles (by decide) hsum
  have hand : Settles room (.level .bitAnd) fun α m => chain m .bitAnd _ := chain_settles (by decide) hshift
  have hxor : Settles room (.level .bitXor) fun α m => chain m .bitXor _ := chain_settles (by decide) hand
  exact chain_settles (by decide) hxor

theorem factor_settles (room : Nat) : Settles room .factor fun _ m => factor m room := by
  induction room with
  | zero => exact operand_settles .none
  | succ room ih => exact operand_settles (.some (levels_settles ih))

/-- **Reading comes to the same ending whatever it builds.** On every list of tokens it reads an expression with its
tree, or it is refused within one, and it looks at no more than the token after those it took. -/
theorem expressionIn_settles (room : Nat) : Settles room .exp fun _ m => expressionIn m room :=
  levels_settles (factor_settles room)

end Walk

end LineCalc
