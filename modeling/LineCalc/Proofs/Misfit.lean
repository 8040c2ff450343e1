/-
Where a misspelt line goes wrong: at the first token that no line could have there.

`Viable us` says that some statement, with the `eof` after it, begins with `us`. The tokens that were read before a
refusal begin a statement. With the next one they do not: what is refused depends on nothing behind that token, so a
statement that went on like this would be refused as well, and statements are never refused for their spelling.

Result:
- `run_misfit`: a diagnostic for spelling points at the least place at which the tokens stop being viable, or at the
  innermost parenthesis that is open there.
-/
import Mathlib.Order.Bounds.Basic
import LineCalc.Proofs.Causes

namespace LineCalc

/-- a line may begin with `us`, where `eof` counts as a token of the line -/
def Viable (us : List Token) : Prop :=
  ∃ ts column, IsStatement ts ∧ us <+: ts ++ [⟨.eof, column⟩]

theorem Viable.of_prefix {us vs : List Token} (h : Viable vs) (hpre : us <+: vs) : Viable us := by
  obtain ⟨ts, column, hts, hvs⟩ := h
  exact ⟨ts, column, hts, hpre.trans hvs⟩

theorem BeginsLine.viable {us : List Token} (h : BeginsLine us) : Viable us := by
  obtain ⟨ts, hts, hpre⟩ := h
  exact ⟨ts, 0, hts, hpre.trans (List.prefix_append ts _)⟩

/-- a statement is never refused for its spelling -/
theorem IsStatement.stage_of_run {ts : List Token} {column : Nat} {store : Store} {d : Diagnostic}
    (hts : IsStatement ts) (h : (Statement.run (ts ++ [⟨.eof, column⟩]) store).1 = .error d) :
    d.fault.stage = .computing := by
  rcases Statement.fault_of_run hts h with hfault | hfault
  · exact hfault.stage
  · rw [hfault]; rfl

namespace Statement

/-- what is refused for its spelling is refused whatever comes behind the next token, so no line goes on with it -/
theorem not_viable_of_run {us : List Token} {next : Token} {store : Store} {d : Diagnostic}
    (h : ∀ rest, current rest = next → (run (us ++ rest) store).1 = .error d) (hstage : d.fault.stage = .parsing) :
    ¬ Viable (us ++ [next]) := by
  rintro ⟨ts, column, hts, more, hmore⟩
  have hrun := h (next :: more) rfl
  rw [List.append_cons, hmore] at hrun
  rw [hts.stage_of_run hrun] at hstage
  cases hstage

/-- **A line is blamed at the first token that no line could have there.** Let a line be refused for its spelling, and
let `t` stand at the least place such that the tokens up to and including the one there begin no statement with its
`eof`; let `us` be the tokens before it.
- Every such diagnostic but one has the column of `t`.
- A missing `)` has the column of the innermost parenthesis that `us` leave open.
- Groups are too deep only if `t` is a `(` before which as many parentheses are open as may be. -/
theorem run_misfit (ts : List Token) (column : Nat) (store : Store) {d : Diagnostic}
    (h : (run (ts ++ [⟨.eof, column⟩]) store).1 = .error d) (hstage : d.fault.stage = .parsing) :
    let line := ts ++ [⟨.eof, column⟩]
    ∃ us t rest, line = us ++ t :: rest ∧
      IsLeast {k | k < line.length ∧ ¬ Viable (line.take (k + 1))} us.length ∧
      (d.fault ≠ .unmatched .closing → d.column = t.column) ∧
      (d.fault = .unmatched .closing → ∃ p, (openParens us).head? = some p ∧ d.column = p.column) ∧
      (d.fault = .nestingTooDeep → t.terminal = .symbol .openParen ∧ (openParens us).length = maxNesting) := by
  intro line
  obtain ⟨us, rest, hline, hlocal, hcause⟩ := run_settled line store
  have hrun : (run line store).1 = .error d := h
  rw [hrun] at hcause
  obtain ⟨hbegins, hblames⟩ : BeginsLine us ∧ Blames maxNesting us (current rest) d := by
    cases hcause with
    | spelling hbegins hblames => exact ⟨hbegins, hblames⟩
    | values hraised => rw [hraised.semantic.stage] at hstage; cases hstage
    | range => cases hstage
  -- the `eof` of the line is still to be read, so there is a next token
  have hnonempty : rest ≠ [] := by
    rintro rfl
    have heof : (⟨.eof, column⟩ : Token) ∈ us := by
      rw [← us.append_nil, ← hline]
      exact List.mem_append_right _ List.mem_cons_self
    exact hbegins.ne_eof _ heof rfl
  obtain ⟨next, more, rfl⟩ := List.exists_cons_of_ne_nil hnonempty
  have hbefore : line.take us.length = us := by rw [hline, List.take_left]
  have hupto : line.take (us.length + 1) = us ++ [next] := by rw [hline, List.take_length_add_append]; rfl
  have hlength : us.length < line.length := by rw [hline, List.length_append, List.length_cons]; omega
  refine ⟨us, next, more, hline, ⟨⟨hlength, ?_⟩, ?_⟩, hblames.place⟩
  · rw [hupto]
    exact not_viable_of_run (fun rest hrest => by rw [hlocal rest hrest]; exact h) hstage
  · rintro k ⟨-, hdead⟩
    by_contra hk
    have hpre : line.take (k + 1) <+: line.take us.length := List.take_prefix_take_left (by omega)
    rw [hbefore] at hpre
    exact hdead (hbegins.viable.of_prefix hpre)

/-- `(1 1`: no line goes on with the second number, and the group it stands in is pointed at -/
theorem run_misfit_number_in_group :
    let line : List Token := [⟨.symbol .openParen, 1⟩, ⟨.number 1, 2⟩, ⟨.number 1, 4⟩, ⟨.eof, 5⟩]
    (run line Store.empty).1 = .error (.unmatched .closing 1) ∧
      ∃ us p, IsLeast {k | k < line.length ∧ ¬ Viable (line.take (k + 1))} us.length ∧
        (openParens us).head? = some p ∧ p.column = 1 := by
  intro line
  have hrun : (run line Store.empty).1 = .error (.unmatched .closing 1) := by decide +kernel
  obtain ⟨us, t, rest, -, hleast, -, hopen, -⟩ :=
    run_misfit [⟨.symbol .openParen, 1⟩, ⟨.number 1, 2⟩, ⟨.number 1, 4⟩] 5 Store.empty hrun rfl
  obtain ⟨p, hp, hcolumn⟩ := hopen rfl
  exact ⟨hrun, us, p, hleast, hp, hcolumn.symm⟩

end Statement

end LineCalc
