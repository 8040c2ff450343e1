/-
Where diagnostics point: at a token of their own line, and at the one that their kind speaks of.

`Fault.Concerns` says of each kind of fault what it speaks of: a missing half of a pair of parentheses of the other
half, a division by zero of the operator, and so on. The causes of a refusal (`Cause`) point into the tokens of the
line. A name without a value is reported where the store has noted it; that is a place of this line, whatever the lines
before it noted, because every name of a line is noted before the line is computed (`pointsInto_of_read`).

Result:
- `evaluate_points`: every diagnostic of a line that is short enough points at such a token, for every session.
-/
import LineCalc.Proofs.Causes
import LineCalc.Proofs.Scanning
import LineCalc.Report

namespace LineCalc

/-- what a fault of a line speaks of -/
def Fault.Concerns : Fault → Terminal → Prop
  | illegalChar c, t => t = .illegal c
  | inputTooLong, _ => False
  | unexpectedEnd, t => t = .eof
  | mismatch _ found, t => t.name = found
  | unmatched .opening, t => t = .symbol .closeParen
  | unmatched .closing, t => t = .symbol .openParen
  | divisionByZero, t => t = .symbol .slash ∨ t = .symbol .starStar
  | modulusByZero, t => t = .symbol .percent
  | unassigned name, t => t = .identifier name
  | trailingTokens, t => t ≠ .eof
  | nestingTooDeep, t => t = .symbol .openParen
  | rangeTooLarge, t => t = .symbol .ellipsis

/-- `d` points at a token among `ts` that its fault speaks of -/
def Diagnostic.PointsInto (d : Diagnostic) (ts : List Token) : Prop :=
  ∃ t ∈ ts, d.column = t.column ∧ d.fault.Concerns t.terminal

variable {ts us : List Token} {store : Store} {d : Diagnostic}

theorem Diagnostic.PointsInto.mono (h : d.PointsInto us) (hsub : us ⊆ ts) : d.PointsInto ts := by
  obtain ⟨t, ht, hcolumn, hconcerns⟩ := h
  exact ⟨t, hsub ht, hcolumn, hconcerns⟩

/-! ## The causes of a refusal -/

/-- an operation fails at its own symbol -/
theorem Operator.concerns_of_apply {op : Operator} {l r : Int64} {column : Nat} (h : op.apply l r column = .error d) :
    d.column = column ∧ d.fault.Concerns (.symbol op.symbol) := by
  cases op with
  | divide =>
    simp only [apply] at h
    split at h
    · cases h; exact ⟨rfl, Or.inl rfl⟩
    · cases h
  | modulo =>
    simp only [apply] at h
    split at h
    · cases h; exact ⟨rfl, rfl⟩
    · cases h
  | power =>
    simp only [apply, raise] at h
    split at h
    · cases h
    split at h
    · cases h; exact ⟨rfl, Or.inr rfl⟩
    split at h
    · cases h
    split at h <;> cases h
  | _ => cases h

/-- a name that was noted on this line is reported where it stands on this line -/
theorem Store.pointsInto_of_read {name : String} {column : Nat} (hmem : ⟨.identifier name, column⟩ ∈ ts)
    (h : (store.noteAll ts).read name column = .error d) : d.PointsInto ts := by
  obtain ⟨hlast, hfault⟩ := lastColumn?_of_read hmem h
  exact ⟨_, mem_of_lastColumn? hlast, rfl, by rw [hfault]; rfl⟩

theorem Raised.pointsInto (hsub : us ⊆ ts) (h : Raised (store.noteAll ts) us d) : d.PointsInto ts := by
  cases h with
  | name hmem hread => exact Store.pointsInto_of_read (hsub hmem) hread
  | operation hmem happly =>
    obtain ⟨hcolumn, hconcerns⟩ := Operator.concerns_of_apply happly
    exact ⟨_, hsub hmem, hcolumn, hconcerns⟩

theorem Blames.pointsInto {room : Nat} {next : Token} (h : Blames room us next d) : d.PointsInto (us ++ [next]) := by
  have hnext : next ∈ us ++ [next] := by simp
  cases h with
  | mismatch expected => exact ⟨next, hnext, rfl, rfl⟩
  | unopened hclose => exact ⟨next, hnext, rfl, hclose⟩
  | unclosed hopens =>
    obtain ⟨hmem, hopen⟩ := hopens.mem List.mem_cons_self
    exact ⟨_, List.mem_append_left _ hmem, rfl, hopen⟩
  | tooDeep hopen _ _ => exact ⟨next, hnext, rfl, hopen⟩
  | leftover heof => exact ⟨next, hnext, rfl, heof⟩

theorem Cause.pointsInto {next : Token} (hsub : us ⊆ ts) (hnext : BeginsLine us → next ∈ ts)
    (h : Cause (store.noteAll ts) us next d) : d.PointsInto ts := by
  cases h with
  | spelling hline hblames =>
    exact hblames.pointsInto.mono (List.append_subset.2 ⟨hsub, List.cons_subset.2 ⟨hnext hline, List.nil_subset _⟩⟩)
  | values hraised => exact hraised.pointsInto hsub
  | range hmem => exact ⟨_, hsub hmem, rfl, rfl⟩

/-! ## Lines -/

theorem current_mem {tokens : List Token} (h : tokens ≠ []) : current tokens ∈ tokens := by
  cases tokens with
  | nil => exact absurd rfl h
  | cons t tokens => exact List.mem_cons_self

/-- the diagnostics of a statement whose names were noted -/
theorem Statement.pointsInto_of_run (heof : ∃ t ∈ ts, t.terminal = .eof)
    (h : (run ts (store.noteAll ts)).1 = .error d) : d.PointsInto ts := by
  obtain ⟨us, rest, hline, -, hcause⟩ := run_settled ts (store.noteAll ts)
  rw [h] at hcause
  refine hcause.pointsInto (fun t ht => by rw [hline]; exact List.mem_append_left _ ht) fun hbegins => ?_
  -- what begins a line holds no `eof`, so that of this one comes later
  have hrest : rest ≠ [] := by
    rintro rfl
    obtain ⟨t, ht, hteof⟩ := heof
    rw [hline, List.append_nil] at ht
    exact hbegins.ne_eof t ht hteof
  rw [hline]
  exact List.mem_append_right _ (current_mem hrest)

namespace Session

theorem pointsInto_of_dispatch (heof : ∃ t ∈ ts, t.terminal = .eof)
    (h : (dispatch ts (store.noteAll ts)).1 = .error d) : d.PointsInto ts := by
  have hfirst : current ts ∈ ts := current_mem (by rintro rfl; obtain ⟨t, ht, -⟩ := heof; cases ht)
  unfold dispatch at h
  dsimp only at h
  split at h
  next hend => cases h; exact ⟨_, hfirst, rfl, hend⟩
  next =>
    dsimp only at h
    split at h
    next => cases h
    next hmore =>
      cases h
      have htail : ts.tail ≠ [] := fun hnil => hmore (by rw [hnil]; rfl)
      exact ⟨_, List.mem_of_mem_tail (current_mem htail), rfl, hmore⟩
  next =>
    cases hrun : (Statement.run ts (store.noteAll ts)).1 with
    | ok v => rw [hrun] at h; cases h
    | error raised => rw [hrun] at h; cases h; exact Statement.pointsInto_of_run heof hrun

theorem pointsInto_of_read {line : String} (h : (read line store).1 = .error d) : d.PointsInto (tokensOf line) := by
  rw [read_eq] at h
  split at h
  next raised hillegal =>
    cases h
    obtain ⟨c, column, hmem, rfl⟩ := legality_eq_error hillegal
    exact ⟨_, hmem, rfl, rfl⟩
  next hlegal =>
    rw [noteAll_scanned hlegal] at h
    exact pointsInto_of_dispatch (eof_mem_tokensOf line) h

/-- **Every diagnostic points at a token of its own line, and at one that its kind speaks of.** The column is that of
the token, so it lies on the line or right after its end, where a report does not have to move it. Nothing is asked of
the session: whatever columns the lines before it have left in the store, they do not show. -/
theorem evaluate_points {s : Session} {line : String} (hshort : line.utf8ByteSize < s.limit)
    (h : (s.evaluate line).1 = .error d) :
    ∃ t ∈ tokensOf line, d.column = t.column ∧ d.fault.Concerns t.terminal ∧ 1 ≤ d.column ∧
      d.column ≤ line.length + 1 ∧ Report.start d.column line.toList.length + 1 = d.column := by
  rw [evaluate_of_short hshort] at h
  obtain ⟨t, ht, hcolumn, hconcerns⟩ := pointsInto_of_read h
  obtain ⟨hlow, hhigh⟩ := column_of_mem_tokensOf ht
  rw [← hcolumn] at hlow hhigh
  refine ⟨t, ht, hcolumn, hconcerns, hlow, hhigh, ?_⟩
  rw [Report.start, String.length_toList]
  omega

/-- `1 + x` after `x`: the name is pointed at where it stands on the second line -/
theorem evaluate_points_name_of_earlier_line :
    let s := ((start defaultLimit).evaluate "x").2
    (s.evaluate "1 + x").1 = .error (.unassigned "x" 5) ∧
      ∃ t ∈ tokensOf "1 + x", 5 = t.column ∧ t.terminal = .identifier "x" := by
  intro s
  have hrun : (s.evaluate "1 + x").1 = .error (.unassigned "x" 5) := by decide +kernel
  obtain ⟨t, ht, hcolumn, hconcerns, -⟩ := evaluate_points (by decide) hrun
  exact ⟨hrun, t, ht, hcolumn, hconcerns⟩

end Session

end LineCalc
