/-
What a refusal blames: the token that was not read, or a parenthesis among those that were.

`openParens ts` are the parentheses that `ts` leave open, innermost first. A phrase closes what it opens
(`Derives.opens`), so the parentheses that are open at a place are those of the groups around it. `Blames` says, for
each way to refuse a phrase, which token the diagnostic points at; it is kept when tokens are put in front
(`Blames.after`) and when a group is put around (`Blames.inGroup`).

`Begins room p us` says that more tokens can make `us` a phrase, and `Expr.WrittenIn` that the names and operations of a
tree stand among some tokens, at the columns that the tree gives.
-/
import LineCalc.Proofs.Recognition

namespace LineCalc

/-! ## Open parentheses -/

/-- the parentheses that are open after one more token, innermost first -/
def Token.track (opened : List Token) (t : Token) : List Token :=
  match t.terminal with
  | .symbol .openParen => t :: opened
  | .symbol .closeParen => opened.tail
  | _ => opened

/-- the parentheses that are open after `ts`, innermost first -/
def openParens (ts : List Token) : List Token :=
  ts.foldl Token.track []

/-- a parenthesis that is open after `ts` was open before, or is among them -/
theorem mem_of_mem_track {ts before : List Token} {t : Token} (h : t ∈ ts.foldl Token.track before) :
    t ∈ before ∨ (t ∈ ts ∧ t.terminal = .symbol .openParen) := by
  induction ts generalizing before with
  | nil => exact Or.inl h
  | cons u us ih =>
    rw [List.foldl_cons] at h
    rcases ih h with h | ⟨h, hopen⟩
    · unfold Token.track at h
      split at h
      next hu =>
        rcases List.mem_cons.1 h with rfl | h
        · exact Or.inr ⟨List.mem_cons_self, hu⟩
        · exact Or.inl h
      next => exact Or.inl (List.mem_of_mem_tail h)
      next => exact Or.inl h
    · exact Or.inr ⟨List.mem_cons_of_mem _ h, hopen⟩

/-- whatever was open before, `ts` close none of it and open `opened` -/
def Opens (ts opened : List Token) : Prop :=
  ∀ before, ts.foldl Token.track before = opened ++ before

theorem Opens.openParens_eq {ts opened : List Token} (h : Opens ts opened) : openParens ts = opened := by
  have h := h []
  rwa [List.append_nil] at h

namespace Opens

variable {ts us opened more : List Token}

theorem nil : Opens [] [] := fun _ => rfl

theorem append (h : Opens ts opened) (h' : Opens us more) : Opens (ts ++ us) (more ++ opened) := by
  intro before
  rw [List.foldl_append, h, h', List.append_assoc]

theorem paren (column : Nat) : Opens [⟨.symbol .openParen, column⟩] [⟨.symbol .openParen, column⟩] := fun _ => rfl

theorem inGroup (h : Opens ts opened) (column : Nat) :
    Opens (⟨.symbol .openParen, column⟩ :: ts) (opened ++ [⟨.symbol .openParen, column⟩]) :=
  (paren column).append h

theorem group (h : Opens ts []) (opening closing : Nat) :
    Opens (⟨.symbol .openParen, opening⟩ :: (ts ++ [⟨.symbol .closeParen, closing⟩])) [] := by
  intro before
  rw [List.foldl_cons, List.foldl_append, h]
  rfl

/-- tokens that are no parentheses -/
theorem of_forall (h : ∀ t ∈ ts, t.terminal ≠ .symbol .openParen ∧ t.terminal ≠ .symbol .closeParen) :
    Opens ts [] := by
  intro before
  induction ts with
  | nil => rfl
  | cons t ts ih =>
    obtain ⟨hopen, hclose⟩ := h t List.mem_cons_self
    have ht : Token.track before t = before := by
      unfold Token.track
      split
      next heq => exact absurd heq hopen
      next heq => exact absurd heq hclose
      next => rfl
    rw [List.foldl_cons, ht]
    exact ih fun t ht => h t (List.mem_cons_of_mem _ ht)

/-- only opening parentheses are open -/
theorem mem (h : Opens ts opened) {t : Token} (ht : t ∈ opened) : t ∈ ts ∧ t.terminal = .symbol .openParen := by
  have hmem := h []
  rw [List.append_nil] at hmem
  rcases @mem_of_mem_track ts [] t (by rwa [hmem]) with ht | ht
  · exact absurd ht List.not_mem_nil
  · exact ht

end Opens

/-! ## The symbols of operators -/

/-- how an operator is written -/
def Operator.symbol : Operator → Symbol
  | bitOr => .bar
  | bitXor => .caret
  | bitAnd => .ampersand
  | shiftLeft => .lessLess
  | shiftRight => .greaterGreater
  | add => .plus
  | subtract => .minus
  | multiply => .star
  | divide => .slash
  | modulo => .percent
  | power => .starStar

theorem Level.eq_symbol_of_mem {l : Level} {s : Symbol} {op : Operator} (h : (s, op) ∈ l.operators) :
    s = op.symbol := by
  revert h
  cases l <;> cases op <;> simp [operators, Operator.symbol]

theorem Opens.operator (op : Operator) (column : Nat) : Opens [⟨.symbol op.symbol, column⟩] [] := by
  cases op <;> exact fun _ => rfl

theorem Opens.signs {ts : List Token} (h : ∀ t ∈ ts, t.IsSign) : Opens ts [] := by
  refine .of_forall fun t ht => ?_
  rcases h t ht with h | h <;> rw [h] <;> exact ⟨by decide, by decide⟩

/-- a phrase closes what it opens -/
theorem Derives.opens {room : Nat} {p : Phrase} {ts : List Token} {e : Expr} (h : Derives room p ts e) :
    Opens ts [] := by
  induction h with
  | single _ _ ih => exact ih
  | unsigned _ _ ih => exact ih
  | plus _ ih => exact (Opens.operator .add _).append ih
  | minus _ ih => exact (Opens.operator .subtract _).append ih
  | @join _ column _ _ op _ _ _ _ hmem _ _ ihl ihr =>
    rw [Level.eq_symbol_of_mem hmem]
    exact ihl.append ((Opens.operator op column).append ihr)
  | base _ ih => exact ih
  | @power _ column _ _ _ _ _ _ ihb ihx => exact ihb.append ((Opens.operator .power column).append ihx)
  | group _ ih => exact ih.group _ _
  | emptyGroup => exact Opens.nil.group _ _
  | identifier => exact .of_forall (by simp)
  | number hs => exact (Opens.signs hs).append (.of_forall (by simp))

/-! ## Trees and the tokens they were read from -/

/-- the names and operations of a tree stand among `ts`, at their columns -/
def Expr.WrittenIn (ts : List Token) : Expr → Prop
  | number _ => True
  | identifier name column => ⟨.identifier name, column⟩ ∈ ts
  | negate e => e.WrittenIn ts
  | binary op left right column => ⟨.symbol op.symbol, column⟩ ∈ ts ∧ left.WrittenIn ts ∧ right.WrittenIn ts

theorem Expr.WrittenIn.mono {ts us : List Token} (hsub : ts ⊆ us) {e : Expr} (h : e.WrittenIn ts) :
    e.WrittenIn us := by
  induction e with
  | number v => trivial
  | identifier name column => exact hsub h
  | negate e ih => exact ih h
  | binary op left right column ihl ihr => exact ⟨hsub h.1, ihl h.2.1, ihr h.2.2⟩

theorem Derives.writtenIn {room : Nat} {p : Phrase} {ts : List Token} {e : Expr} (h : Derives room p ts e) :
    e.WrittenIn ts := by
  induction h with
  | single _ _ ih => exact ih
  | unsigned _ _ ih => exact ih
  | plus _ ih => exact ih.mono (List.subset_cons_self _ _)
  | minus _ ih => exact ih.mono (List.subset_cons_self _ _)
  | join hmem _ _ ihl ihr =>
    rw [Level.eq_symbol_of_mem hmem]
    exact ⟨by simp, ihl.mono (by simp), ihr.mono (by intro t ht; simp [ht])⟩
  | base _ ih => exact ih
  | power _ _ ihb ihx => exact ⟨by simp [Operator.symbol], ihb.mono (by simp), ihx.mono (by intro t ht; simp [ht])⟩
  | group _ ih => exact ih.mono (by intro t ht; simp [ht])
  | emptyGroup => trivial
  | identifier => exact List.mem_cons_self
  | number _ => trivial

/-! ## What is refused, and what is blamed -/

/-- more tokens can make `us` a phrase -/
def Begins (room : Nat) (p : Phrase) (us : List Token) : Prop :=
  ∃ vs e, Derives room p (us ++ vs) e

theorem Derives.begins {room : Nat} {p : Phrase} {ts : List Token} {e : Expr} (h : Derives room p ts e) :
    Begins room p ts :=
  ⟨[], e, by rwa [List.append_nil]⟩

namespace Begins

variable {room : Nat} {l : Level} {ts us : List Token} {e : Expr}

/-- signs wait for a number -/
theorem signs (room : Nat) (h : ∀ t ∈ us, t.IsSign) : Begins room .factor us :=
  ⟨[⟨.number 0, 0⟩], _, .number h⟩

theorem base (h : Begins room .factor us) : Begins room .exponent us := by
  obtain ⟨vs, e, h⟩ := h
  exact ⟨vs, e, .base h⟩

theorem power (hb : Derives room .factor ts e) (column : Nat) (h : Begins room .factor us) :
    Begins room .exponent (ts ++ ⟨.symbol .starStar, column⟩ :: us) := by
  obtain ⟨vs, x, h⟩ := h
  exact ⟨vs, _, by simpa using hb.power h⟩

theorem single (hl : l ≠ .additive) (h : Begins room l.part us) : Begins room (.level l) us := by
  obtain ⟨vs, e, h⟩ := h
  exact ⟨vs, e, .single hl h⟩

theorem join {s : Symbol} {op : Operator} (hmem : (s, op) ∈ l.operators) (ht : Derives room (.level l) ts e)
    (column : Nat) (h : Begins room l.part us) : Begins room (.level l) (ts ++ ⟨.symbol s, column⟩ :: us) := by
  obtain ⟨vs, r, h⟩ := h
  exact ⟨vs, _, by simpa using ht.join hmem h⟩

theorem inGroup (h : Begins room .exp us) (column : Nat) :
    Begins (room + 1) .factor (⟨.symbol .openParen, column⟩ :: us) := by
  obtain ⟨vs, e, h⟩ := h
  exact ⟨vs ++ [⟨.symbol .closeParen, 0⟩], e, by simpa using h.group⟩

/-- a term may begin with a number -/
theorem term (room : Nat) : Begins room (.level .multiplicative) [] :=
  (signs room (List.forall_mem_nil _)).base.single (by decide)

/-- the first term of a sum comes after its sign -/
theorem afterSign {t : Token} (ht : t.IsSign) (h : Begins room (.level .multiplicative) us) :
    Begins room (.level .additive) (t :: us) := by
  obtain ⟨vs, e, hterm⟩ := h
  obtain ⟨terminal, column⟩ := t
  rcases ht with ht | ht <;> cases ht
  · exact ⟨vs, e, .plus hterm⟩
  · exact ⟨vs, .negate e, .minus hterm⟩

/-- a sum may begin with a number -/
theorem sum (room : Nat) : Begins room (.level .additive) [] := by
  have hnumber : Derives room .factor ([] ++ [⟨.number 0, 0⟩]) _ := .number (by simp)
  exact ⟨_, _, .unsigned (.single (by decide) (.base hnumber)) (by rintro (h | h) <;> cases h)⟩

end Begins

/-- a refusal points at `next`, which follows `us`, or at the innermost parenthesis that `us` leave open -/
inductive Blames (room : Nat) (us : List Token) (next : Token) : Diagnostic → Prop
  | mismatch (expected : String) : Blames room us next (.mismatch expected next.terminal.name next.column)
  | unopened : next.terminal = .symbol .closeParen → Blames room us next (.unmatched .opening next.column)
  | unclosed {t : Token} {opened : List Token} :
      Opens us (t :: opened) → Blames room us next (.unmatched .closing t.column)
  /-- as many parentheses are open as may be -/
  | tooDeep {opened : List Token} :
      next.terminal = .symbol .openParen → Opens us opened → opened.length = room →
      Blames room us next (.nestingTooDeep maxNesting next.column)
  | leftover : next.terminal ≠ .eof → Blames room us next (.trailingTokens next.column)

namespace Blames

variable {room : Nat} {ts us : List Token} {next : Token} {d : Diagnostic}

/-- tokens in front that leave nothing open -/
theorem after (h : Blames room us next d) (hts : Opens ts []) : Blames room (ts ++ us) next d := by
  have hopens : ∀ {opened}, Opens us opened → Opens (ts ++ us) opened := by
    intro opened hus
    have happend := hts.append hus
    rwa [List.append_nil] at happend
  cases h with
  | mismatch expected => exact .mismatch expected
  | unopened hclose => exact .unopened hclose
  | unclosed hus => exact .unclosed (hopens hus)
  | tooDeep hopen hus hroom => exact .tooDeep hopen (hopens hus) hroom
  | leftover heof => exact .leftover heof

theorem inGroup (h : Blames room us next d) (column : Nat) :
    Blames (room + 1) (⟨.symbol .openParen, column⟩ :: us) next d := by
  cases h with
  | mismatch expected => exact .mismatch expected
  | unopened hclose => exact .unopened hclose
  | unclosed hus => exact .unclosed (hus.inGroup column)
  | tooDeep hopen hus hroom => exact .tooDeep hopen (hus.inGroup column) (by simp [hroom])
  | leftover heof => exact .leftover heof

/-- the column of a refusal, and what it tells of the parentheses that are open -/
theorem place (h : Blames room us next d) :
    (d.fault ≠ .unmatched .closing → d.column = next.column) ∧
      (d.fault = .unmatched .closing → ∃ t, (openParens us).head? = some t ∧ d.column = t.column) ∧
      (d.fault = .nestingTooDeep → next.terminal = .symbol .openParen ∧ (openParens us).length = room) := by
  cases h with
  | mismatch expected => exact ⟨fun _ => rfl, nofun, nofun⟩
  | unopened hclose => exact ⟨fun _ => rfl, nofun, nofun⟩
  | @unclosed t opened hus =>
    have hinnermost : (openParens us).head? = some t := by rw [hus.openParens_eq]; rfl
    exact ⟨fun hne => absurd rfl hne, fun _ => ⟨t, hinnermost, rfl⟩, nofun⟩
  | tooDeep hopen hus hroom => exact ⟨fun _ => rfl, nofun, fun _ => ⟨hopen, by rw [hus.openParens_eq, hroom]⟩⟩
  | leftover heof => exact ⟨fun _ => rfl, nofun, nofun⟩

theorem stage (h : Blames room us next d) : d.fault.stage = .parsing := by
  cases h <;> rfl

end Blames

end LineCalc
