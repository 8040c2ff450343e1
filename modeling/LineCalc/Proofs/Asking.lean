/-
Asking for the manual: the lines that are answered by it, and what else the word `help` does on a line.

A token that is a keyword was written as that keyword is (`text_of_read_keyword`), so the tokens of a text tell where
it begins with one (`tokensFrom_eq_keyword`), and when nothing but spaces follows (`tokensFrom_eq_eof`). Hence one
keyword is all there is on a line if and only if the line is that word with spaces around it (`tokensOf_keyword_iff`).
A session answers `help` by its first two tokens (`dispatch_eq_help`); anywhere else the word is part of no statement
(`IsStatement.ne_help`).

Result:
- `evaluate_help`: the lines that the manual answers, what they leave, and what becomes of the other lines that begin
  with `help` or hold it somewhere.
-/
import LineCalc.Proofs.Acceptance
import LineCalc.Proofs.Scanning
import LineCalc.Proofs.Spelling

namespace LineCalc

/-! ## Lines of one keyword -/

theorem Lexeme.text_of_read_keyword {c : Char} {cs : List Char} {k : Keyword}
    (h : (read c cs).1.terminal = .keyword k) : (read c cs).1.text = k.text.toList := by
  rcases spelling_of_read c cs with ⟨sp, -, -, hlexeme⟩ | ⟨hsymbol, hdigit, halpha⟩
  · rw [hlexeme] at h ⊢
    cases sp with
    | keyword k' => cases h; rfl
    | _ => cases h
  · simp [read, hdigit, halpha, hsymbol] at h

/-- only spaces are no tokens -/
theorem tokensFrom_eq_eof {column last : Nat} {cs : List Char} (h : tokensFrom column cs = [⟨.eof, last⟩]) :
    ∃ n, cs = List.replicate n ' ' := by
  fun_induction tokensFrom column cs with
  | case1 => exact ⟨0, rfl⟩
  | case2 column cs ih =>
    obtain ⟨n, rfl⟩ := ih h
    exact ⟨n + 1, rfl⟩
  | case3 column c cs hc r ih =>
    have hterminal : r.1.terminal = .eof := congrArg Token.terminal (List.cons.inj h).1
    exact absurd hterminal (Lexeme.terminal_read_ne_eof c cs)

/-- a text whose first token is a keyword begins with that word, behind any spaces -/
theorem tokensFrom_eq_keyword {column first : Nat} {cs : List Char} {k : Keyword} {ts : List Token}
    (h : tokensFrom column cs = ⟨.keyword k, first⟩ :: ts) :
    ∃ n rest, cs = List.replicate n ' ' ++ k.text.toList ++ rest ∧
      ts = tokensFrom (column + n + k.text.toList.length) rest := by
  fun_induction tokensFrom column cs with
  | case1 => cases h
  | case2 column cs ih =>
    obtain ⟨n, rest, rfl, rfl⟩ := ih h
    refine ⟨n + 1, rest, by simp [List.replicate_succ], ?_⟩
    rw [Nat.add_assoc column 1 n, Nat.add_comm 1 n]
  | case3 column c cs hc r ih =>
    obtain ⟨hfirst, rfl⟩ := List.cons.inj h
    have htext : r.1.text = k.text.toList := Lexeme.text_of_read_keyword (congrArg Token.terminal hfirst)
    refine ⟨0, r.2, ?_, ?_⟩
    · rw [← htext]
      exact (Lexeme.read_append c cs).symm
    · rw [htext, Nat.add_zero]

/-- a line is one keyword if and only if that word is written on it, and nothing else but spaces -/
theorem tokensOf_keyword_iff (line : String) (k : Keyword) :
    (∃ first last, tokensOf line = [⟨.keyword k, first⟩, ⟨.eof, last⟩]) ↔
      ∃ before after, line.toList = List.replicate before ' ' ++ k.text.toList ++ List.replicate after ' ' := by
  constructor
  · rintro ⟨first, last, htokens⟩
    obtain ⟨before, rest, hline, hrest⟩ := tokensFrom_eq_keyword htokens
    obtain ⟨after, rfl⟩ := tokensFrom_eq_eof hrest.symm
    exact ⟨before, after, hline⟩
  · rintro ⟨before, after, hline⟩
    have hwritten : line = String.ofList (written [⟨before, .keyword k⟩] after) := by
      rw [← String.toList_inj, String.toList_ofList, hline]
      simp [written, Placed.chars, Spelling.text]
    have htokens := @tokensOf_written [⟨before, .keyword k⟩] after (by simp [Spelling.IsLegal]) (by simp)
    rw [← hwritten] at htokens
    exact ⟨_, _, htokens⟩

/-! ## The word in a statement -/

theorem Derives.ne_help {room : Nat} {p : Phrase} {ts : List Token} {e : Expr} (h : Derives room p ts e) :
    ∀ t ∈ ts, t.terminal ≠ .keyword .help := by
  intro t ht hhelp
  have hin := h.inExpression t ht
  rw [hhelp] at hin
  exact hin

/-- no statement has the word in it -/
theorem IsStatement.ne_help {ts : List Token} (h : IsStatement ts) : ∀ t ∈ ts, t.terminal ≠ .keyword .help := by
  cases h with
  | expression h => exact h.ne_help
  | assignment h =>
    simp only [List.forall_mem_cons]
    exact ⟨by simp, by simp, h.ne_help⟩
  | summation hl hu hb =>
    simp only [List.forall_mem_cons, List.forall_mem_append]
    exact ⟨by simp, by simp, by simp, hl.ne_help, by simp, hu.ne_help, by simp, hb.ne_help⟩

/-! ## Sessions -/

namespace Session

theorem dispatch_eq_help {tokens : List Token} {store : Store} :
    (dispatch tokens store).1 = .ok .help ↔
      (current tokens).terminal = .keyword .help ∧ (current tokens.tail).terminal = .eof := by
  unfold dispatch
  dsimp only
  split
  next heof => simp [heof]
  next hhelp => simp [hhelp]
  next hother =>
    have hne : (current tokens).terminal ≠ .keyword .help := fun h => hother h
    cases (Statement.run tokens store).1 <;> simp [Except.map, hne]

/-- what is answered to a line of legal tokens that begins with the word -/
theorem dispatch_help {tokens : List Token} (h : (current tokens).terminal = .keyword .help) (store : Store) :
    dispatch tokens store =
      (if (current tokens.tail).terminal = .eof then .ok .help else .error (.trailingHelp (current tokens.tail).column),
        store) := by
  simp only [dispatch, h]

/-- a line of which the first token is a word has a second token -/
theorem exists_second {line : String} {k : Keyword} (h : (current (tokensOf line)).terminal = .keyword k) :
    ∃ first second rest, tokensOf line = ⟨.keyword k, first⟩ :: second :: rest ∧
      (second.terminal = .eof → rest = []) := by
  obtain ⟨ts, htokens, hts⟩ := tokensOf_eq_append line
  cases ts with
  | nil => rw [htokens] at h; cases h
  | cons t ts =>
    have ht : t = ⟨.keyword k, t.column⟩ := by
      rw [htokens] at h
      obtain ⟨terminal, column⟩ := t
      cases h
      rfl
    cases ts with
    | nil => exact ⟨t.column, ⟨.eof, line.length + 1⟩, [], by rw [htokens, ← ht]; rfl, fun _ => rfl⟩
    | cons u ts =>
      refine ⟨t.column, u, ts ++ [⟨.eof, line.length + 1⟩], by rw [htokens, ← ht]; rfl, fun heof => ?_⟩
      exact absurd heof (hts u (by simp)).1

/-- a line with the word on it has no value -/
theorem value_of_dispatch {line : String} {store : Store} {v : Int64}
    (h : (dispatch (tokensOf line) store).1 = .ok (.value v)) : ∀ t ∈ tokensOf line, t.terminal ≠ .keyword .help := by
  obtain ⟨ts, htokens, hts⟩ := tokensOf_eq_append line
  have hrun : (Statement.run (tokensOf line) store).1 = .ok v := by
    unfold dispatch at h
    dsimp only at h
    split at h
    next => cases h
    next => dsimp only at h; split at h <;> cases h
    next =>
      dsimp only at h
      cases hrun : (Statement.run (tokensOf line) store).1 with
      | error d => rw [hrun] at h; cases h
      | ok w => rw [hrun] at h; cases h; rfl
  rw [htokens] at hrun ⊢
  have hstatement := Statement.isStatement_of_run (fun t ht => (hts t ht).1) hrun
  exact List.forall_mem_append.2 ⟨hstatement.ne_help, by simp⟩

/-- the tokens of a line that is answered by the manual -/
theorem evaluate_eq_help_iff (s : Session) (line : String) :
    (s.evaluate line).1 = .ok .help ↔
      line.utf8ByteSize < s.limit ∧ ∃ first last, tokensOf line = [⟨.keyword .help, first⟩, ⟨.eof, last⟩] := by
  rcases Nat.lt_or_ge line.utf8ByteSize s.limit with hshort | hlong
  · rw [evaluate_of_short hshort, read_eq]
    constructor
    · intro h
      refine ⟨hshort, ?_⟩
      cases hlegal : legality (tokensOf line) with
      | error d => rw [hlegal] at h; cases h
      | ok u =>
        rw [hlegal] at h
        obtain ⟨hfirst, hsecond⟩ := dispatch_eq_help.1 h
        obtain ⟨first, second, rest, htokens, hrest⟩ := exists_second hfirst
        rw [htokens] at hsecond
        obtain ⟨terminal, last⟩ := second
        cases (hsecond : terminal = .eof)
        exact ⟨first, last, by rw [htokens, hrest rfl]⟩
    · rintro ⟨-, first, last, htokens⟩
      rw [htokens]
      rfl
  · rw [evaluate_of_long hlong]
    simp [Nat.not_lt.2 hlong]

/-- **What `help` does on a line.** In every session:
- the manual is the answer to exactly the lines below the limit that are the word `help` with nothing but spaces around
  it, and such a line leaves the session as it was;
- any other line below the limit that holds nothing illegal and begins with that token is refused at its second token,
  for what follows;
- a line with that token anywhere on it has no value. -/
theorem evaluate_help (s : Session) (line : String) :
    ((s.evaluate line).1 = .ok .help ↔
      line.utf8ByteSize < s.limit ∧
        ∃ before after, line.toList = List.replicate before ' ' ++ "help".toList ++ List.replicate after ' ') ∧
    ((s.evaluate line).1 = .ok .help → (s.evaluate line).2 = s) ∧
    (line.utf8ByteSize < s.limit → (∀ t ∈ tokensOf line, ∀ c, t.terminal ≠ .illegal c) →
      (current (tokensOf line)).terminal = .keyword .help → (s.evaluate line).1 ≠ .ok .help →
      ∃ second, (tokensOf line)[1]? = some second ∧ second.terminal ≠ .eof ∧
        (s.evaluate line).1 = .error (.trailingHelp second.column)) ∧
    ((∃ t ∈ tokensOf line, t.terminal = .keyword .help) → ∀ v, (s.evaluate line).1 ≠ .ok (.value v)) := by
  refine ⟨?_, fun h => ?_, fun hshort hlegal hfirst hne => ?_, fun ⟨t, ht, hhelp⟩ v h => ?_⟩
  · rw [evaluate_eq_help_iff]
    exact and_congr_right fun _ => tokensOf_keyword_iff line .help
  · obtain ⟨hshort, first, last, htokens⟩ := (s.evaluate_eq_help_iff line).1 h
    have hstore : s.store.noteAll (scanned (tokensOf line)) = s.store := by
      rw [htokens]
      rfl
    rw [evaluate_of_short hshort, read_eq, hstore, htokens]
    rfl
  · obtain ⟨first, second, rest, htokens, -⟩ := exists_second hfirst
    rw [evaluate_of_short hshort, read_eq, legality_eq_ok_iff.2 hlegal] at hne ⊢
    dsimp only at hne ⊢
    rw [dispatch_help hfirst] at hne ⊢
    rw [htokens] at hne ⊢
    by_cases heof : second.terminal = .eof
    · exact absurd (if_pos heof) hne
    · exact ⟨second, rfl, heof, if_neg heof⟩
  · rcases Nat.lt_or_ge line.utf8ByteSize s.limit with hshort | hlong
    · rw [evaluate_of_short hshort, read_eq] at h
      cases hlegal : legality (tokensOf line) with
      | error d => rw [hlegal] at h; cases h
      | ok u => rw [hlegal] at h; exact value_of_dispatch h t ht hhelp
    · rw [evaluate_of_long hlong] at h
      cases h

end Session

end LineCalc
