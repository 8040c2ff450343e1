/-
Pairs of parentheses, and which of them a missing partner is reported for.

Parentheses match as on a stack: `ParenPair` is a `(` with the `)` that closes it, between which everything that is
opened is closed. A pair is a group if an expression stands in it, or nothing (`ParenPair.IsGroup`).

Wherever a line goes on with a `(`, it may go on with any group (`Derives.regroup`, `IsStatement.regroup`), so no token
of a group can be the one that a line is refused for, and the `(` of a group is not open any more when the line is
refused behind it. A pair that is no group is another matter. Its inside is refused, at the `)` if something is missing
there, or at the `(` if something is left over, and what is reported is a missing partner all the same.

Results:
- `evaluate_unmatched`: the halves of a group are never reported;
- `partnered_paren_reported`: the halves of other pairs may be.
-/
import LineCalc.Proofs.Misfit
import LineCalc.Proofs.Pointing

namespace LineCalc

/-! ## Pairs -/

/-- a `(` of a line and the `)` that it is matched with -/
structure ParenPair (line : List Token) where
  before : List Token
  opening : Token
  inside : List Token
  closing : Token
  after : List Token
  line_eq : line = before ++ opening :: (inside ++ closing :: after)
  opens : opening.terminal = .symbol .openParen
  closes : closing.terminal = .symbol .closeParen
  /-- what is opened between the halves is closed there, and nothing else is -/
  balanced : Opens inside []

namespace ParenPair

variable {line : List Token}

/-- the half that is there when `missing` is not -/
def half (p : ParenPair line) : (missing : Paren) → Token
  | .opening => p.closing
  | .closing => p.opening

/-- the pair with what it encloses -/
def tokens (p : ParenPair line) : List Token :=
  p.opening :: (p.inside ++ [p.closing])

/-- an expression stands in the pair, or nothing does; with the parentheses around it, not too many are open -/
def IsGroup (p : ParenPair line) : Prop :=
  ∃ e, Derives (maxNesting - (openParens p.before).length) .factor p.tokens e

theorem opens_tokens (p : ParenPair line) : Opens p.tokens [] := by
  have hopening : p.opening = ⟨.symbol .openParen, p.opening.column⟩ := by rw [← p.opens]
  have hclosing : p.closing = ⟨.symbol .closeParen, p.closing.column⟩ := by rw [← p.closes]
  rw [tokens, hopening, hclosing]
  exact p.balanced.group _ _

/-- no sign stands at the front of a pair -/
theorem not_isSign (p : ParenPair line) : ¬ (current p.tokens).IsSign := by
  rintro (h | h)
  · exact absurd (p.opens.symm.trans h) (by decide)
  · exact absurd (p.opens.symm.trans h) (by decide)

end ParenPair

/-! ## Groups may stand where a parenthesis is opened -/

/-- after `pre`, any operand without a sign leads on to what `B` holds of -/
def Admits (room : Nat) (B : List Token → Prop) (pre : List Token) : Prop :=
  ∃ opened, Opens pre opened ∧
    ∀ us e, Derives (room - opened.length) .factor us e → ¬ (current us).IsSign → B (pre ++ us)

/-- tokens in front that leave nothing open -/
theorem Admits.after {room : Nat} {B C : List Token → Prop} {pre ts : List Token} (h : Admits room B pre)
    (hts : Opens ts []) (hlead : ∀ us, B us → C (ts ++ us)) : Admits room C (ts ++ pre) := by
  obtain ⟨opened, hopens, hadmits⟩ := h
  refine ⟨opened, ?_, fun us e hus hsign => ?_⟩
  · have happend := hts.append hopens
    rwa [List.append_nil] at happend
  · rw [List.append_assoc]
    exact hlead _ (hadmits us e hus hsign)

theorem Admits.imp {room : Nat} {B C : List Token → Prop} {pre : List Token} (h : Admits room B pre)
    (hlead : ∀ us, B us → C us) : Admits room C pre :=
  h.after .nil hlead

theorem Admits.inGroup {room : Nat} {pre : List Token} (h : Admits room (Begins room .exp) pre) (column : Nat) :
    Admits (room + 1) (Begins (room + 1) .factor) (⟨.symbol .openParen, column⟩ :: pre) := by
  obtain ⟨opened, hopens, hadmits⟩ := h
  refine ⟨_, hopens.inGroup column, fun us e hus hsign => ?_⟩
  rw [List.length_append, List.length_singleton, Nat.add_sub_add_right] at hus
  exact (hadmits us e hus hsign).inGroup column

theorem admits_nil (room : Nat) : Admits room (Begins room .factor) [] :=
  ⟨[], .nil, fun _ _ hus _ => hus.begins⟩

/-- a first term that begins with no sign -/
theorem Admits.unsigned {room : Nat} {pre post : List Token} {t : Token}
    (h : Admits room (Begins room (.level .multiplicative)) pre) (hfirst : ¬ (current (pre ++ t :: post)).IsSign) :
    Admits room (Begins room (.level .additive)) pre := by
  obtain ⟨opened, hopens, hadmits⟩ := h
  refine ⟨opened, hopens, fun us e hus hsign => ?_⟩
  obtain ⟨vs, term, hterm⟩ := hadmits us e hus hsign
  refine ⟨vs, term, .unsigned hterm ?_⟩
  cases pre with
  | nil =>
    have hcurrent : current (us ++ vs) = current us := current_append hus.opensOperand.ne_eof vs
    rwa [List.nil_append, hcurrent]
  | cons u pre => exact hfirst

/-- a token of a joined list stands in front of the joint or behind it -/
theorem append_cons_cases {pre post ts us : List Token} {t joint : Token} (ht : t ≠ joint)
    (h : ts ++ joint :: us = pre ++ t :: post) :
    (∃ vs, ts = pre ++ t :: vs) ∨ ∃ vs, pre = ts ++ joint :: vs ∧ us = vs ++ t :: post := by
  rcases List.append_eq_append_iff.1 h with ⟨ws, rfl, hws⟩ | ⟨ws, rfl, hws⟩
  · cases ws with
    | nil => cases hws; exact absurd rfl ht
    | cons w ws => cases hws; exact Or.inr ⟨ws, rfl, rfl⟩
  · cases ws with
    | nil => cases hws; exact absurd rfl ht
    | cons w ws => cases hws; exact Or.inl ⟨ws, rfl⟩

/-- a token of a list that goes on after its head is that head or stands behind it -/
theorem cons_cases {pre post us : List Token} {t first : Token} (ht : t ≠ first)
    (h : first :: us = pre ++ t :: post) : ∃ vs, pre = first :: vs ∧ us = vs ++ t :: post := by
  rcases @append_cons_cases pre post [] us t first ht h with ⟨vs, hvs⟩ | ⟨vs, hpre, hus⟩
  · simp at hvs
  · exact ⟨vs, hpre, hus⟩

/-- **Where a phrase has a `(`, it may go on with any group.** -/
theorem Derives.regroup {room : Nat} {p : Phrase} {ts : List Token} {e : Expr} (h : Derives room p ts e)
    {opening : Token} (hopen : opening.terminal = .symbol .openParen) {pre post : List Token}
    (hts : ts = pre ++ opening :: post) : Admits room (Begins room p) pre := by
  -- the induction follows the `(` into the part of the phrase where it stands
  have hne : ∀ {t : Token}, t.terminal ≠ .symbol .openParen → opening ≠ t := fun ht heq => ht (heq ▸ hopen)
  induction h generalizing pre post with
  | single hl _ ih => exact (ih hts).imp fun us hus => hus.single hl
  | unsigned _ hfirst ih => exact (ih hts).unsigned (by rwa [hts] at hfirst)
  | @plus room column ts e _ ih =>
    obtain ⟨vs, rfl, hvs⟩ := cons_cases (hne (by simp)) hts
    exact (ih hvs).after (.operator .add column) fun us hus => hus.afterSign (Or.inl rfl)
  | @minus room column ts e _ ih =>
    obtain ⟨vs, rfl, hvs⟩ := cons_cases (hne (by simp)) hts
    exact (ih hvs).after (.operator .subtract column) fun us hus => hus.afterSign (Or.inr rfl)
  | @join room column l s op ts us left right hmem hleft hright ihl ihr =>
    have hjoint : Opens (ts ++ [⟨.symbol s, column⟩]) [] := by
      rw [Level.eq_symbol_of_mem hmem]
      exact hleft.opens.append (.operator op column)
    have hs : (Terminal.symbol s) ≠ .symbol .openParen := by
      rw [Level.eq_symbol_of_mem hmem]
      cases op <;> decide
    rcases append_cons_cases (hne hs) hts with ⟨vs, hvs⟩ | ⟨vs, rfl, hvs⟩
    · exact ihl hvs
    · rw [List.append_cons]
      refine (ihr hvs).after hjoint fun ws hws => ?_
      rw [← List.append_cons]
      exact hws.join hmem hleft column
  | base _ ih => exact (ih hts).imp fun us hus => hus.base
  | @power room column ts us b x hb hx ihb ihx =>
    rcases append_cons_cases (hne (by simp)) hts with ⟨vs, hvs⟩ | ⟨vs, rfl, hvs⟩
    · exact (ihb hvs).imp fun us hus => hus.base
    · rw [List.append_cons]
      refine (ihx hvs).after (hb.opens.append (.operator .power column)) fun ws hws => ?_
      rw [← List.append_cons]
      exact hws.power hb column
  | @group room c₁ c₂ ts e _ ih =>
    cases pre with
    | nil => exact admits_nil _
    | cons t pre =>
      obtain ⟨rfl, htail⟩ := List.cons.inj hts
      rcases append_cons_cases (hne (by simp)) htail with ⟨vs, hvs⟩ | ⟨vs, -, hvs⟩
      · exact (ih hvs).inGroup c₁
      · simp at hvs
  | @emptyGroup room c₁ c₂ =>
    cases pre with
    | nil => exact admits_nil _
    | cons t pre =>
      obtain ⟨-, htail⟩ := List.cons.inj hts
      obtain ⟨vs, -, hvs⟩ := cons_cases (hne (by simp)) htail
      simp at hvs
  | identifier =>
    obtain ⟨vs, -, hvs⟩ := cons_cases (hne (by simp)) hts
    simp at hvs
  | @number room column v signs hs =>
    rcases append_cons_cases (hne (by simp)) hts with ⟨vs, rfl⟩ | ⟨vs, -, hvs⟩
    · rcases hs opening (by simp) with h | h
      · exact absurd (hopen.symm.trans h) (by decide)
      · exact absurd (hopen.symm.trans h) (by decide)
    · simp at hvs

/-- a statement as well -/
theorem IsStatement.regroup {ts : List Token} (h : IsStatement ts) {opening : Token}
    (hopen : opening.terminal = .symbol .openParen) {pre post : List Token} (hts : ts = pre ++ opening :: post) :
    Admits maxNesting BeginsLine pre := by
  have hne : ∀ {t : Token}, t.terminal ≠ .symbol .openParen → opening ≠ t := fun ht heq => ht (heq ▸ hopen)
  cases h with
  | expression he =>
    refine (he.regroup hopen hts).imp fun us hus => ?_
    obtain ⟨vs, e, he⟩ := hus
    exact ⟨_, .expression he, List.prefix_append us vs⟩
  | @assignment name c₁ c₂ ts e he =>
    obtain ⟨_, rfl, htail⟩ := cons_cases (hne (by simp)) hts
    obtain ⟨vs, rfl, hvs⟩ := cons_cases (hne (by simp)) htail
    have hhead : Opens [⟨.identifier name, c₁⟩, ⟨.symbol .equals, c₂⟩] [] := .of_forall (by simp)
    refine (he.regroup hopen hvs).after hhead fun us hus => ?_
    obtain ⟨more, e, he⟩ := hus
    exact ⟨_, @IsStatement.assignment name c₁ c₂ _ _ he, by simp⟩
  | @summation name c₁ c₂ c₃ c₄ c₅ ls us bs lower upper body hl hu hb =>
    obtain ⟨_, rfl, hname⟩ := cons_cases (hne (by simp)) hts
    obtain ⟨_, rfl, hbounds⟩ := cons_cases (hne (by simp)) hname
    obtain ⟨vs, rfl, hvs⟩ := cons_cases (hne (by simp)) hbounds
    have hhead : Opens [⟨.keyword .sum, c₁⟩, ⟨.identifier name, c₂⟩, ⟨.keyword .bounds, c₃⟩] [] :=
      .of_forall (by simp)
    rcases append_cons_cases (hne (by simp)) hvs with ⟨xs, hxs⟩ | ⟨xs, rfl, hrest⟩
    · refine (hl.regroup hopen hxs).after hhead fun ws hws => ?_
      obtain ⟨more, e, he⟩ := hws
      exact ⟨_, @IsStatement.summation name c₁ c₂ c₃ c₄ c₅ _ us bs _ upper body he hu hb, by simp⟩
    -- the lower bound is complete
    have hdots : Opens [⟨.symbol .ellipsis, c₄⟩] [] := .of_forall (by simp)
    have hlower := (hhead.append hl.opens).append hdots
    rcases append_cons_cases (hne (by simp)) hrest with ⟨ys, hys⟩ | ⟨ys, rfl, hbody⟩
    · have hlead : ∀ ws, Begins maxNesting .exp ws → BeginsLine (([⟨.keyword .sum, c₁⟩, ⟨.identifier name, c₂⟩,
          ⟨.keyword .bounds, c₃⟩] ++ ls ++ [⟨.symbol .ellipsis, c₄⟩]) ++ ws) := by
        rintro ws ⟨more, e, he⟩
        exact ⟨_, @IsStatement.summation name c₁ c₂ c₃ c₄ c₅ ls _ bs lower _ body hl he hb, by simp⟩
      simpa using (hu.regroup hopen hys).after hlower hlead
    -- so is the upper one
    · have hin : Opens [⟨.keyword .body, c₅⟩] [] := .of_forall (by simp)
      have hupper := (hlower.append hu.opens).append hin
      have hlead : ∀ ws, Begins maxNesting .exp ws → BeginsLine (([⟨.keyword .sum, c₁⟩, ⟨.identifier name, c₂⟩,
          ⟨.keyword .bounds, c₃⟩] ++ ls ++ [⟨.symbol .ellipsis, c₄⟩] ++ us ++ [⟨.keyword .body, c₅⟩]) ++ ws) := by
        rintro ws ⟨more, e, he⟩
        exact ⟨_, @IsStatement.summation name c₁ c₂ c₃ c₄ c₅ ls us _ lower upper _ hl hu he, by simp⟩
      simpa using (hb.regroup hopen hbody).after hupper hlead

/-! ## Groups are not reported -/

namespace ParenPair

variable {line : List Token}

/-- a line that reads up to a group may go on with it -/
theorem IsGroup.beginsLine {p : ParenPair line} (h : p.IsGroup) {more : List Token}
    (hbegins : BeginsLine (p.before ++ p.opening :: more)) : BeginsLine (p.before ++ p.tokens) := by
  obtain ⟨ts, hts, rest, rfl⟩ := hbegins
  obtain ⟨opened, hopens, hadmits⟩ := hts.regroup p.opens (List.append_assoc _ _ _)
  obtain ⟨e, hgroup⟩ := h
  rw [hopens.openParens_eq] at hgroup
  exact hadmits p.tokens e hgroup p.not_isSign

/-- the `(` of a pair is not open any more behind its `)` -/
theorem opening_not_mem (p : ParenPair line) (hcolumns : line.Pairwise fun t u => t.column < u.column)
    {more rest : List Token} (hline : line = (p.before ++ p.tokens ++ more) ++ rest) :
    p.opening ∉ openParens (p.before ++ p.tokens ++ more) := by
  intro hmem
  rw [hline] at hcolumns
  have hcolumns := (List.pairwise_append.1 hcolumns).1
  rw [openParens, List.foldl_append, List.foldl_append, p.opens_tokens, List.nil_append] at hmem
  -- what is open there was open before the pair, or is opened behind it
  rcases mem_of_mem_track hmem with hbefore | ⟨hmore, -⟩
  · rcases mem_of_mem_track hbefore with hnil | ⟨hbefore, -⟩
    · cases hnil
    · have hlt := (List.pairwise_append.1 (List.pairwise_append.1 hcolumns).1).2.2 _ hbefore p.opening
        List.mem_cons_self
      exact Nat.lt_irrefl _ hlt
  · have hpair : p.opening ∈ p.before ++ p.tokens := List.mem_append_right _ List.mem_cons_self
    have hlt := (List.pairwise_append.1 hcolumns).2.2 _ hpair _ hmore
    exact Nat.lt_irrefl _ hlt

/-- while the `(` of a group is open, the next token is still one of the group -/
theorem IsGroup.viable_of_open {p : ParenPair line} (h : p.IsGroup)
    (hcolumns : line.Pairwise fun t u => t.column < u.column) {us rest : List Token} (hline : line = us ++ rest)
    (hbegins : BeginsLine us) {t : Token} (hopen : t ∈ openParens us) (hcolumn : t.column = p.opening.column) :
    Viable (us ++ [current rest]) := by
  have hmem : t ∈ us := by
    rcases mem_of_mem_track hopen with hnil | ⟨hmem, -⟩
    · cases hnil
    · exact hmem
  obtain ⟨pre, vs, rfl⟩ := List.append_of_mem hmem
  have hline' : line = pre ++ t :: (vs ++ rest) := hline.trans (List.append_assoc _ _ _)
  obtain ⟨rfl, rfl, hrest⟩ := eq_of_column_eq hcolumns hline' p.line_eq hcolumn
  -- behind its `)` the group would not be open
  have hread : ∀ ws, vs ≠ p.inside ++ [p.closing] ++ ws := by
    rintro ws rfl
    have htokens : p.before ++ p.opening :: (p.inside ++ [p.closing] ++ ws) = p.before ++ p.tokens ++ ws := by
      simp [tokens]
    rw [htokens] at hopen hline
    exact p.opening_not_mem hcolumns hline hopen
  rw [List.append_cons] at hrest
  rcases List.append_eq_append_iff.1 hrest with ⟨ws, hws, hafter⟩ | ⟨ws, hvs, -⟩
  · cases ws with
    | nil => exact absurd (by rw [hws, List.append_nil, List.append_nil]) (hread [])
    | cons w ws =>
      subst hafter
      refine (h.beginsLine hbegins).viable.of_prefix ⟨ws, ?_⟩
      simp [tokens, hws, current]
  · exact absurd hvs (hread ws)

end ParenPair

namespace Statement

theorem column_ne_of_run {line : List Token} (hcolumns : line.Pairwise fun t u => t.column < u.column) {store : Store}
    {d : Diagnostic} {missing : Paren} (h : (run line store).1 = .error d) (hd : d.fault = .unmatched missing)
    (p : ParenPair line) (hgroup : p.IsGroup) : d.column ≠ (p.half missing).column := by
  obtain ⟨us, rest, hline, hlocal, hcause⟩ := run_settled line store
  rw [h] at hcause
  have hdead : ¬ Viable (us ++ [current rest]) :=
    not_viable_of_run (fun rest' hrest => by rw [hlocal rest' hrest]; exact h) (by rw [hd]; rfl)
  intro hcolumn
  apply hdead
  cases hcause with
  | values hraised =>
    have hstage := hraised.semantic.stage
    rw [hd] at hstage
    cases hstage
  | range => cases hd
  | spelling hbegins hblames =>
    cases hblames with
    | mismatch => cases hd
    | tooDeep => cases hd
    | leftover => cases hd
    | unopened hclose =>
      cases hd
      obtain ⟨column, more, rfl⟩ := exists_cons_of_terminal hclose (by simp)
      have hpair : line = (p.before ++ p.opening :: p.inside) ++ p.closing :: p.after :=
        p.line_eq.trans (by simp)
      obtain ⟨rfl, hclosing, -⟩ := eq_of_column_eq hcolumns hline hpair hcolumn
      have hviable := (hgroup.beginsLine hbegins).viable
      rw [ParenPair.tokens, ← hclosing] at hviable
      rw [List.append_assoc]
      exact hviable
    | @unclosed t opened hopens =>
      cases hd
      refine hgroup.viable_of_open hcolumns hline hbegins ?_ hcolumn
      rw [hopens.openParens_eq]
      exact List.mem_cons_self

end Statement

/-! ## Lines -/

/-- the half of a pair that is there when `missing` is not -/
def Paren.present : (missing : Paren) → Symbol
  | .opening => .closeParen
  | .closing => .openParen

namespace Session

theorem run_of_unmatched {s : Session} {line : String} {d : Diagnostic} {missing : Paren}
    (h : (s.evaluate line).1 = .error d) (hd : d.fault = .unmatched missing) :
    (Statement.run (tokensOf line) (s.store.noteAll (tokensOf line))).1 = .error d := by
  have hrefused := refused_of_evaluate h
  generalize (s.evaluate line).2.store = left at hrefused
  cases hrefused with
  | long => cases hd
  | illegal => cases hd
  | brief hfault =>
    rw [hd] at hfault
    rcases hfault with hfault | hfault <;> cases hfault
  | statement hrun => exact hrun

/-- **A group is never reported for a missing partner.** A diagnostic for a missing parenthesis points at one of the
other kind on the line, and that one is no half of a group: it is no half of a matched pair at all, or what stands in
the pair is neither empty nor an expression, or is nested too deeply. -/
theorem evaluate_unmatched {s : Session} {line : String} {d : Diagnostic} {missing : Paren}
    (h : (s.evaluate line).1 = .error d) (hd : d.fault = .unmatched missing) :
    (∃ t ∈ tokensOf line, d.column = t.column ∧ t.terminal = .symbol missing.present) ∧
      ∀ p : ParenPair (tokensOf line), p.IsGroup → d.column ≠ (p.half missing).column := by
  have hrun := run_of_unmatched h hd
  refine ⟨?_, fun p hgroup => Statement.column_ne_of_run (tokensFrom_pairwise 1 _) hrun hd p hgroup⟩
  obtain ⟨t, ht, hcolumn, hconcerns⟩ := Statement.pointsInto_of_run (eof_mem_tokensOf line) hrun
  rw [hd] at hconcerns
  refine ⟨t, ht, hcolumn, ?_⟩
  cases missing with
  | opening => exact hconcerns
  | closing => exact hconcerns

/-- `(1) + (1 1)`: the `(` of the second pair is reported, that of the group before it is not -/
theorem evaluate_unmatched_second_pair :
    ((start defaultLimit).evaluate "(1) + (1 1)").1 = .error (.unmatched .closing 7) ∧
      ∃ p : ParenPair (tokensOf "(1) + (1 1)"), p.IsGroup ∧ p.opening.column = 1 ∧ 7 ≠ p.opening.column := by
  have hrun : ((start defaultLimit).evaluate "(1) + (1 1)").1 = .error (.unmatched .closing 7) := by decide +kernel
  let p : ParenPair (tokensOf "(1) + (1 1)") :=
    { before := []
      opening := ⟨.symbol .openParen, 1⟩
      inside := [⟨.number 1, 2⟩]
      closing := ⟨.symbol .closeParen, 3⟩
      after := [⟨.symbol .plus, 5⟩, ⟨.symbol .openParen, 7⟩, ⟨.number 1, 8⟩, ⟨.number 1, 10⟩,
        ⟨.symbol .closeParen, 11⟩, ⟨.eof, 12⟩]
      line_eq := by decide +kernel
      opens := rfl
      closes := rfl
      balanced := .of_forall (by simp) }
  have hgroup : p.IsGroup := ⟨_, @Derives.group 99 1 3 _ _ (.ofNumber 99 1 2)⟩
  exact ⟨hrun, p, hgroup, rfl, (evaluate_unmatched hrun rfl).2 p hgroup⟩

/-- a parenthesis with a partner may be reported: in `(1+)` it is said of the `)` that it closes a group that was never
opened, though the `(` is there and only an operand is missing -/
theorem partnered_paren_reported :
    ¬ ∀ (s : Session) (line : String) (d : Diagnostic) (missing : Paren),
      (∀ t ∈ tokensOf line, ∀ c, t.terminal ≠ .illegal c) → (s.evaluate line).1 = .error d →
        d.fault = .unmatched missing → ∀ p : ParenPair (tokensOf line), d.column ≠ (p.half missing).column := by
  intro hclaim
  have hrun : ((start defaultLimit).evaluate "(1+)").1 = .error (.unmatched .opening 4) := by decide +kernel
  let p : ParenPair (tokensOf "(1+)") :=
    { before := []
      opening := ⟨.symbol .openParen, 1⟩
      inside := [⟨.number 1, 2⟩, ⟨.symbol .plus, 3⟩]
      closing := ⟨.symbol .closeParen, 4⟩
      after := [⟨.eof, 5⟩]
      line_eq := by decide +kernel
      opens := rfl
      closes := rfl
      balanced := .of_forall (by simp) }
  exact hclaim _ _ _ .opening (legality_eq_ok_iff.1 (by decide +kernel)) hrun rfl p rfl

end Session

end LineCalc
