/-
Walks: reading a phrase off the front of a list of tokens.

A walk yields what it read and the tokens that are left, or a diagnostic. What is left is always an end of what was
given (`Walk.suffix`), so a loop that takes one token before each walk comes to its end. A list that has run out reads
as `eof`.
-/
import LineCalc.Token
import LineCalc.Diagnostic

namespace LineCalc

/-- the next token -/
def current : List Token → Token
  | [] => ⟨.eof, 0⟩
  | t :: _ => t

/-- a next token other than `eof` is really there -/
theorem exists_cons_of_terminal {tokens : List Token} {t : Terminal} (h : (current tokens).terminal = t)
    (ht : t ≠ .eof) : ∃ column rest, tokens = ⟨t, column⟩ :: rest := by
  cases tokens with
  | nil => exact absurd h.symm ht
  | cons first tokens => subst h; exact ⟨first.column, tokens, rfl⟩

theorem current_append {ts : List Token} (h : (current ts).terminal ≠ .eof) (rest : List Token) :
    current (ts ++ rest) = current ts := by
  cases ts with
  | nil => exact absurd rfl h
  | cons t ts => rfl

/-- a phrase that can be read off the front of a list of tokens -/
structure Walk (α : Type) where
  run : List Token → Except Diagnostic (α × List Token)
  suffix : ∀ {tokens : List Token} {a : α} {rest : List Token}, run tokens = .ok (a, rest) → rest <:+ tokens

namespace Walk

variable {α β : Type}

/-- reads nothing -/
protected def pure (a : α) : Walk α where
  run tokens := .ok (a, tokens)
  suffix h := by cases h; exact List.suffix_refl _

/-- one phrase, then the phrase that it calls for -/
protected def bind (w : Walk α) (f : α → Walk β) : Walk β where
  run tokens :=
    match w.run tokens with
    | .ok (a, rest) => (f a).run rest
    | .error d => .error d
  suffix {tokens b rest} h := by
    split at h
    next a mid hw => exact ((f a).suffix h).trans (w.suffix hw)
    next => cases h

instance : Monad Walk where
  pure := Walk.pure
  bind := Walk.bind

/-- refuses what follows -/
def fail (d : Diagnostic) : Walk α where
  run _ := .error d
  suffix h := by cases h

/-- a result that needs no tokens -/
def lift (r : Except Diagnostic α) : Walk α where
  run tokens := r.map fun a => (a, tokens)
  suffix h := by
    cases r with
    | error d => cases h
    | ok a => cases h; exact List.suffix_refl _

/-- the next token, which is left where it is -/
def peek : Walk Token where
  run tokens := .ok (current tokens, tokens)
  suffix h := by cases h; exact List.suffix_refl _

/-- takes the next token -/
def advance : Walk Unit where
  run tokens := .ok ((), tokens.tail)
  suffix h := by cases h; exact List.tail_suffix _

/-- takes the next token if it is `t` -/
def accept (t : Terminal) : Walk Bool := do
  if (← peek).terminal = t then
    advance
    return true
  else
    return false

/-- takes the next token, which has to be `t` -/
def expect (t : Terminal) : Walk Token := do
  let found ← peek
  if found.terminal = t then
    advance
    return found
  else
    fail (.mismatch t.name found.terminal.name found.column)

@[simp]
theorem run_pure (a : α) (tokens : List Token) : (pure a : Walk α).run tokens = .ok (a, tokens) := rfl

theorem run_bind (w : Walk α) (f : α → Walk β) (tokens : List Token) :
    (w >>= f).run tokens = (w.run tokens).bind fun r => (f r.1).run r.2 := by
  show (match w.run tokens with | .ok (a, rest) => (f a).run rest | .error d => .error d) = _
  cases w.run tokens <;> rfl

/-- a walk that succeeds hands over to the next one -/
theorem run_bind_of_ok {w : Walk α} {tokens rest : List Token} {a : α} (h : w.run tokens = .ok (a, rest))
    (f : α → Walk β) : (w >>= f).run tokens = (f a).run rest := by
  rw [run_bind, h]
  rfl

/-- a walk that fails ends everything after it -/
theorem run_bind_of_error {w : Walk α} {tokens : List Token} {d : Diagnostic} (h : w.run tokens = .error d)
    (f : α → Walk β) : (w >>= f).run tokens = .error d := by
  rw [run_bind, h]
  rfl

/-- what a walk and its successor read, they read one after the other -/
theorem run_bind_eq_ok {w : Walk α} {f : α → Walk β} {tokens rest : List Token} {b : β}
    (h : (w >>= f).run tokens = .ok (b, rest)) :
    ∃ a mid, w.run tokens = .ok (a, mid) ∧ (f a).run mid = .ok (b, rest) := by
  rw [run_bind] at h
  cases hw : w.run tokens with
  | error d => rw [hw] at h; cases h
  | ok r => rw [hw] at h; exact ⟨r.1, r.2, rfl, h⟩

@[simp]
theorem run_fail (d : Diagnostic) (tokens : List Token) : (fail d : Walk α).run tokens = .error d := rfl

@[simp]
theorem run_lift (r : Except Diagnostic α) (tokens : List Token) :
    (lift r).run tokens = r.map fun a => (a, tokens) := rfl

@[simp]
theorem run_peek (tokens : List Token) : peek.run tokens = .ok (current tokens, tokens) := rfl

@[simp]
theorem run_advance (tokens : List Token) : advance.run tokens = .ok ((), tokens.tail) := rfl

theorem run_peek_bind (f : Token → Walk β) (tokens : List Token) :
    (peek >>= f).run tokens = (f (current tokens)).run tokens := rfl

theorem run_accept (t : Terminal) (tokens : List Token) :
    (accept t).run tokens =
      if (current tokens).terminal = t then .ok (true, tokens.tail) else .ok (false, tokens) := by
  unfold accept
  rw [run_peek_bind]
  split <;> rfl

theorem run_expect (t : Terminal) (tokens : List Token) :
    (expect t).run tokens =
      if (current tokens).terminal = t then .ok (current tokens, tokens.tail)
      else .error (.mismatch t.name (current tokens).terminal.name (current tokens).column) := by
  unfold expect
  rw [run_peek_bind]
  split <;> rfl

theorem run_expect_cons (t : Terminal) (column : Nat) (tokens : List Token) :
    (expect t).run (⟨t, column⟩ :: tokens) = .ok (⟨t, column⟩, tokens) := by
  rw [run_expect]
  exact if_pos rfl

theorem run_expect_eq_ok {t : Terminal} (ht : t ≠ .eof) {tokens rest : List Token} {found : Token}
    (h : (expect t).run tokens = .ok (found, rest)) : ∃ column, tokens = ⟨t, column⟩ :: rest := by
  rw [run_expect] at h
  split at h
  next hfound =>
    obtain ⟨column, tail, rfl⟩ := exists_cons_of_terminal hfound ht
    cases h
    exact ⟨column, rfl⟩
  next => cases h

end Walk

end LineCalc
