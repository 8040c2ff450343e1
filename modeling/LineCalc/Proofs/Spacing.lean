/-
Spaces between lexemes change nothing but columns.

`Spaced cs cs'` says that `cs'` is `cs` with more spaces: in front of a lexeme, behind the last one, never inside. The
lexemes are the same, since a space ends each of them (`Lexeme.read_of_alike`), so the tokens are the same but for their
columns (`tokensFrom_spaced`). Columns are labels (`Session.dispatch_move`), and that carries over to what a line comes
to and to the store it leaves.

Result:
- `evaluate_spaced`: spacing a line out moves its tokens, its diagnostic and the slots of its names, and changes nothing
  else.
-/
import LineCalc.Proofs.Columns
import LineCalc.Proofs.Delimiting
import LineCalc.Proofs.Isolation
import LineCalc.Proofs.Pointing

namespace LineCalc

/-! ## Spaced texts -/

/-- `cs'` is `cs` with spaces put in where no lexeme is torn apart -/
inductive Spaced : (cs cs' : List Char) → Prop
  | nil : Spaced [] []
  | insert {cs cs' : List Char} : Spaced cs cs' → Spaced cs (' ' :: cs')
  | space {cs cs' : List Char} : Spaced cs cs' → Spaced (' ' :: cs) (' ' :: cs')
  | lexeme {c : Char} {cs rest' : List Char} :
      c ≠ ' ' → Spaced (Lexeme.read c cs).2 rest' → Spaced (c :: cs) ((Lexeme.read c cs).1.text ++ rest')

theorem Spaced.of_read {c : Char} {cs rest rest' : List Char} {l : Lexeme} (hc : c ≠ ' ')
    (hread : Lexeme.read c cs = (l, rest)) (h : Spaced rest rest') : Spaced (c :: cs) (l.text ++ rest') := by
  have hlexeme := @Spaced.lexeme c cs rest' hc (by rwa [hread])
  rwa [hread] at hlexeme

theorem Lexeme.text_eq_cons (c : Char) (cs : List Char) : ∃ us, (read c cs).1.text = c :: us := by
  obtain ⟨d, us, htext⟩ := List.exists_cons_of_ne_nil (text_read_ne_nil c cs)
  have happend := read_append c cs
  rw [htext] at happend
  cases (List.cons.inj happend).1
  exact ⟨us, htext⟩

theorem Spaced.beginsAlike {cs cs' : List Char} (h : Spaced cs cs') : BeginsAlike cs cs' := by
  cases h with
  | nil => exact Or.inl rfl
  | insert => exact Or.inr rfl
  | space => exact Or.inl rfl
  | @lexeme c cs rest' hc hrest =>
    obtain ⟨us, htext⟩ := Lexeme.text_eq_cons c cs
    left
    rw [htext]
    rfl

/-- a label that no token bears may be moved anywhere -/
theorem map_move_update {tokens : List Token} {column : Nat} (h : ∀ t ∈ tokens, t.column ≠ column) (f : Nat → Nat)
    (column' : Nat) : tokens.map (Token.move (Function.update f column column')) = tokens.map (Token.move f) := by
  refine List.map_congr_left fun t ht => ?_
  rw [Token.move, Function.update_of_ne (h t ht)]
  rfl

/-- the tokens of a spaced text stand at other columns -/
theorem tokensFrom_spaced {cs cs' : List Char} (h : Spaced cs cs') (column column' : Nat) (hcolumn : column ≠ 0) :
    ∃ f : Nat → Nat, f 0 = 0 ∧ tokensFrom column' cs' = (tokensFrom column cs).map (Token.move f) := by
  induction h generalizing column column' with
  | nil =>
    refine ⟨Function.update id column column', Function.update_of_ne (Ne.symm hcolumn) _ _, ?_⟩
    simp [tokensFrom, Token.move]
  | insert _ ih =>
    obtain ⟨f, hf, htokens⟩ := ih column (column' + 1) hcolumn
    exact ⟨f, hf, by rw [tokensFrom, if_pos rfl, htokens]⟩
  | space _ ih =>
    obtain ⟨f, hf, htokens⟩ := ih (column + 1) (column' + 1) (Nat.succ_ne_zero column)
    exact ⟨f, hf, by rw [tokensFrom, if_pos rfl, htokens, tokensFrom, if_pos rfl]⟩
  | @lexeme c cs rest' hc hrest ih =>
    -- the lexeme is read again, and its column is one that no later token bears
    obtain ⟨us, htext⟩ := Lexeme.text_eq_cons c cs
    have hcs' : (Lexeme.read c cs).1.text ++ rest' = c :: (us ++ rest') := by rw [htext]; rfl
    have hread := Lexeme.read_of_alike c hrest.beginsAlike hcs'
    have hlength : (Lexeme.read c cs).1.text.length = us.length + 1 := by rw [htext]; rfl
    obtain ⟨f, hf, htokens⟩ :=
      ih (column + (us.length + 1)) (column' + (us.length + 1)) (Nat.succ_ne_zero _)
    have hlater : ∀ t ∈ tokensFrom (column + (us.length + 1)) (Lexeme.read c cs).2, t.column ≠ column := by
      intro t ht
      have hlow := column_of_mem_tokensFrom ht
      omega
    refine ⟨Function.update f column column', ?_, ?_⟩
    · rw [Function.update_of_ne (Ne.symm hcolumn), hf]
    · rw [hcs', tokensFrom, if_neg hc, tokensFrom, if_neg hc]
      simp only [hread, hlength]
      rw [List.map_cons, map_move_update hlater, htokens, Token.move, Function.update_self]

/-! ## Stores -/

namespace Store

variable (s : Store)

/-- which names are noted does not depend on where they stand -/
theorem names_noteAll_move (f : Nat → Nat) (ts : List Token) :
    (s.noteAll (ts.map (Token.move f))).names = (s.noteAll ts).names := by
  induction ts using List.reverseRecOn with
  | nil => rfl
  | append_singleton ts t ih =>
    rw [List.map_append, List.map_singleton, noteAll_append_singleton, noteAll_append_singleton]
    obtain ⟨terminal, column⟩ := t
    cases terminal with
    | identifier name =>
      show (declare _ name _).names = (declare _ name _).names
      rw [declare, declare, names_change, names_change, ih]
      · exact fun _ => rfl
      · exact fun _ => rfl
    | _ => exact ih

/-- noting moved tokens moves the slots of their names -/
theorem agreeOn_noteAll_move (f : Nat → Nat) (ts : List Token) :
    (s.noteAll (ts.map (Token.move f))).AgreeOn (ts.map (Token.move f)) ((s.noteAll ts).move f) := by
  intro name column hmem
  rw [find?_move, find?_noteAll, find?_noteAll, lastColumn?_move]
  cases hlast : lastColumn? name ts with
  | none =>
    have hnone := lastColumn?_eq_none_iff.1 (by rw [lastColumn?_move, hlast]; rfl) _ hmem
    exact absurd rfl hnone
  | some last => rfl

end Store

/-! ## Lines -/

namespace Session

/-- two lines with the same tokens at different columns -/
theorem read_move {line line' : String} {f : Nat → Nat} (hf : f 0 = 0)
    (htokens : tokensOf line' = (tokensOf line).map (Token.move f)) (store : Store) :
    Alike (scanned (tokensOf line')) (read line' store) (moveBoth f id (read line store)) := by
  have hnoted : (store.noteAll (scanned (tokensOf line'))).AgreeOn (scanned (tokensOf line'))
      ((store.noteAll (scanned (tokensOf line))).move f) := by
    rw [htokens, scanned_move]
    exact store.agreeOn_noteAll_move f _
  have hlegality : legality (tokensOf line') = moveResult f id (legality (tokensOf line)) := by
    rw [htokens, legality_move]
  rw [read_eq, read_eq]
  cases hlegal : legality (tokensOf line) with
  | error d =>
    rw [hlegal] at hlegality
    rw [hlegality]
    exact ⟨rfl, hnoted⟩
  | ok u =>
    rw [hlegal] at hlegality
    rw [hlegality]
    have hlegal' : legality (tokensOf line') = .ok () := hlegality
    have halike := dispatch_alike (agreeOn_of_legal hlegal' hnoted)
    have hmove := dispatch_move hf (tokensOf line) (store.noteAll (scanned (tokensOf line)))
    rw [← htokens] at hmove
    rw [hmove] at halike
    exact ⟨halike.1, halike.2.mono (List.takeWhile_prefix _).subset⟩

/-- **Spacing a line out changes nothing but columns.** Let `line'` be `line` with more spaces between its lexemes, in
front of them or behind them, and let both be short enough to be scanned. Then some `f` takes the columns of the tokens
of `line` to those of the same tokens in `line'`, and that is all the difference:
- the values are the same, and a diagnostic of `line`, which has the column of a token there, has the same kind and note
  and the moved column in `line'`;
- the store has the same names in the same order; a name that was noted has the same value and is as readable, and stands
  where it is noted last on its line; any other name has the same slot. -/
theorem evaluate_spaced {s : Session} {line line' : String} (hspaced : Spaced line.toList line'.toList)
    (hshort : line.utf8ByteSize < s.limit) (hshort' : line'.utf8ByteSize < s.limit) :
    let r := s.evaluate line
    let r' := s.evaluate line'
    let noted := scanned (tokensOf line)
    ∃ f : Nat → Nat, tokensOf line' = (tokensOf line).map (Token.move f) ∧
      r'.1 = moveResult f id r.1 ∧ (∀ d, r.1 = .error d → ∃ t ∈ tokensOf line, d.column = t.column) ∧
      r'.2.store.names = r.2.store.names ∧
      (∀ name column, lastColumn? name noted = some column → ∃ slot, slot.column = column ∧
        r.2.store.find? name = some slot ∧ r'.2.store.find? name = some (slot.move f)) ∧
      ∀ name, lastColumn? name noted = none → r'.2.store.find? name = r.2.store.find? name := by
  intro r r' noted
  obtain ⟨f, hf, htokens⟩ : ∃ f : Nat → Nat, f 0 = 0 ∧ tokensOf line' = (tokensOf line).map (Token.move f) :=
    tokensFrom_spaced hspaced 1 1 (by decide)
  have hr : r = ((read line s.store).1, { s with store := (read line s.store).2 }) := evaluate_of_short hshort
  have hr' : r' = ((read line' s.store).1, { s with store := (read line' s.store).2 }) := evaluate_of_short hshort'
  have hnoted : scanned (tokensOf line') = noted.map (Token.move f) := by rw [htokens, scanned_move]
  obtain ⟨hresult, hstore⟩ := read_move hf htokens s.store
  obtain ⟨name?, htouched, htarget⟩ := read_touched line s.store
  obtain ⟨name?', htouched', htarget'⟩ := read_touched line' s.store
  have hmentioned := fun name hname => Statement.exists_of_target? (htarget name hname).2
  have hmentioned' := fun name hname => Statement.exists_of_target? (htarget' name hname).2
  rw [hr, hr']
  refine ⟨f, htokens, hresult, ?_, ?_, ?_, ?_⟩
  · intro d hd
    obtain ⟨t, ht, hcolumn, -⟩ := pointsInto_of_read hd
    exact ⟨t, ht, hcolumn⟩
  · show (read line' s.store).2.names = (read line s.store).2.names
    rw [htouched'.names_noteAll hmentioned', htouched.names_noteAll hmentioned, hnoted, Store.names_noteAll_move]
  · intro name column hlast
    obtain ⟨slot, hslot, hcolumn⟩ := Option.map_eq_some_iff.1 (htouched.column_noteAll hlast)
    refine ⟨slot, hcolumn, hslot, ?_⟩
    have hmem : ⟨.identifier name, f column⟩ ∈ scanned (tokensOf line') := by
      rw [hnoted]
      exact List.mem_map_of_mem (mem_of_lastColumn? hlast)
    show (read line' s.store).2.find? name = _
    rw [hstore name _ hmem, moveBoth, Store.find?_move, hslot, Option.map_some]
  · intro name hlast
    have hlast' : lastColumn? name (scanned (tokensOf line')) = none := by
      rw [hnoted, lastColumn?_move, hlast, Option.map_none]
    show (read line' s.store).2.find? name = (read line s.store).2.find? name
    rw [htouched'.find?_noteAll hmentioned' hlast', htouched.find?_noteAll hmentioned hlast]

/-- `x=y` and ` x  = y `: both fail at the `y` and make `x` readable -/
theorem evaluate_spaced_failed_assignment :
    let s := start defaultLimit
    Spaced "x=y".toList " x  = y ".toList ∧ (s.evaluate "x=y").1 = .error (.unassigned "y" 3) ∧
      (s.evaluate " x  = y ").1 = .error (.unassigned "y" 7) ∧
        ∃ slot, slot.column = 1 ∧ (s.evaluate "x=y").2.store.find? "x" = some slot ∧
          (s.evaluate " x  = y ").2.store.find? "x" = some { slot with column := 2 } := by
  intro s
  have hx : Lexeme.read 'x' ['=', 'y'] = (⟨.identifier "x", ['x']⟩, ['=', 'y']) := by decide +kernel
  have hequals : Lexeme.read '=' ['y'] = (⟨.symbol .equals, ['=']⟩, ['y']) := by decide +kernel
  have hy : Lexeme.read 'y' [] = (⟨.identifier "y", ['y']⟩, []) := by decide +kernel
  have hspaced : Spaced "x=y".toList " x  = y ".toList :=
    .insert (.of_read (by decide) hx (.insert (.insert (.of_read (by decide) hequals
      (.insert (.of_read (by decide) hy (.insert .nil)))))))
  have hrun : (s.evaluate "x=y").1 = .error (.unassigned "y" 3) := by decide +kernel
  have hlast : lastColumn? "x" (scanned (tokensOf "x=y")) = some 1 := by decide +kernel
  have hline : tokensOf "x=y" = [⟨.identifier "x", 1⟩, ⟨.symbol .equals, 2⟩, ⟨.identifier "y", 3⟩, ⟨.eof, 4⟩] := by
    decide +kernel
  have hline' : tokensOf " x  = y " =
      [⟨.identifier "x", 2⟩, ⟨.symbol .equals, 5⟩, ⟨.identifier "y", 7⟩, ⟨.eof, 9⟩] := by
    decide +kernel
  obtain ⟨f, htokens, hresult, -, -, hnames, -⟩ := evaluate_spaced (s := s) hspaced (by decide) (by decide)
  simp only [hline, hline', List.map_cons, Token.move, List.cons.injEq, Token.mk.injEq] at htokens
  obtain ⟨⟨-, h1⟩, -, ⟨-, h3⟩, -⟩ := htokens
  obtain ⟨slot, hcolumn, hslot, hslot'⟩ := hnames "x" 1 hlast
  refine ⟨hspaced, hrun, ?_, slot, hcolumn, hslot, ?_⟩
  · rw [hresult, hrun, h3]
    rfl
  · rw [hslot', h1, ← hcolumn]
    rfl

end Session

end LineCalc
