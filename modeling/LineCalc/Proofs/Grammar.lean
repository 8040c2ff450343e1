/-
The grammar of lines, stated apart from any way of reading them.

`Derives room p ts e` says that the tokens `ts` are a phrase of kind `p` in which at most `room` parentheses are open at
once, and that `e` is its tree. The productions are those of the manual:
- a level of operators joins phrases of the next tighter kind, and every level folds to the left;
- a sum may begin with a sign: `-` negates its first term, `+` adds nothing. A sign at the very front of a sum is always
  this one, so a first term without it begins with no sign of its own;
- `**` has one operand on either side, and does not chain;
- an operand is an expression in parentheses, a name, or a number after any signs; an odd number of `-` among these
  negates the number. An empty pair of parentheses is worth 0.
Names and operations carry the column of their own token.

`IsStatement ts` says that `ts` are a whole line: an expression, an assignment or a summation.
-/
import LineCalc.Precedence

namespace LineCalc

/-! ## Expressions -/

/-- a kind of phrase -/
inductive Phrase where
  /-- operands of a level, joined by its operators -/
  | level (l : Level)
  | exponent
  | factor
deriving DecidableEq, Repr

/-- the loosest kind of phrase -/
abbrev Phrase.exp : Phrase := .level .bitOr

namespace Level

/-- the operators of a level -/
def operators : Level → List (Symbol × Operator)
  | bitOr => [(.bar, .bitOr)]
  | bitXor => [(.caret, .bitXor)]
  | bitAnd => [(.ampersand, .bitAnd)]
  | shift => [(.lessLess, .shiftLeft), (.greaterGreater, .shiftRight)]
  | additive => [(.plus, .add), (.minus, .subtract)]
  | multiplicative => [(.star, .multiply), (.slash, .divide), (.percent, .modulo)]

/-- what the operators of a level join -/
def part : Level → Phrase
  | bitOr => .level .bitXor
  | bitXor => .level .bitAnd
  | bitAnd => .level .shift
  | shift => .level .additive
  | additive => .level .multiplicative
  | multiplicative => .exponent

end Level

def Token.IsSign (t : Token) : Prop :=
  t.terminal = .symbol .plus ∨ t.terminal = .symbol .minus

instance (t : Token) : Decidable t.IsSign := by
  unfold Token.IsSign; infer_instance

/-- whether an odd number of minus signs is among `signs` -/
def oddMinus (signs : List Token) : Bool :=
  signs.countP (fun t => t.terminal = .symbol .minus) % 2 = 1

/-- phrases and their trees -/
inductive Derives : Nat → Phrase → List Token → Expr → Prop
  /-- one operand of a level that knows no signs -/
  | single {room : Nat} {l : Level} {ts : List Token} {e : Expr} :
      l ≠ .additive → Derives room l.part ts e → Derives room (.level l) ts e
  /-- the first term of a sum, without a sign in front -/
  | unsigned {room : Nat} {ts : List Token} {e : Expr} :
      Derives room (.level .multiplicative) ts e → ¬ (current ts).IsSign → Derives room (.level .additive) ts e
  | plus {room column : Nat} {ts : List Token} {e : Expr} :
      Derives room (.level .multiplicative) ts e →
      Derives room (.level .additive) (⟨.symbol .plus, column⟩ :: ts) e
  | minus {room column : Nat} {ts : List Token} {e : Expr} :
      Derives room (.level .multiplicative) ts e →
      Derives room (.level .additive) (⟨.symbol .minus, column⟩ :: ts) (.negate e)
  /-- one more operand of a level -/
  | join {room column : Nat} {l : Level} {s : Symbol} {op : Operator} {ts us : List Token} {left right : Expr} :
      (s, op) ∈ l.operators → Derives room (.level l) ts left → Derives room l.part us right →
      Derives room (.level l) (ts ++ ⟨.symbol s, column⟩ :: us) (.binary op left right column)
  | base {room : Nat} {ts : List Token} {e : Expr} :
      Derives room .factor ts e → Derives room .exponent ts e
  | power {room column : Nat} {ts us : List Token} {b x : Expr} :
      Derives room .factor ts b → Derives room .factor us x →
      Derives room .exponent (ts ++ ⟨.symbol .starStar, column⟩ :: us) (.binary .power b x column)
  | group {room opening closing : Nat} {ts : List Token} {e : Expr} :
      Derives room .exp ts e →
      Derives (room + 1) .factor (⟨.symbol .openParen, opening⟩ :: (ts ++ [⟨.symbol .closeParen, closing⟩])) e
  | emptyGroup {room opening closing : Nat} :
      Derives (room + 1) .factor [⟨.symbol .openParen, opening⟩, ⟨.symbol .closeParen, closing⟩] (.number 0)
  | identifier {room column : Nat} {name : String} :
      Derives room .factor [⟨.identifier name, column⟩] (.identifier name column)
  | number {room column : Nat} {v : Int64} {signs : List Token} :
      (∀ t ∈ signs, t.IsSign) →
      Derives room .factor (signs ++ [⟨.number v, column⟩]) (.number (if oddMinus signs then -v else v))

/-- a sum is an expression -/
theorem Derives.ofSum {room : Nat} {ts : List Token} {e : Expr} (h : Derives room (.level .additive) ts e) :
    Derives room .exp ts e :=
  .single (by decide) (.single (by decide) (.single (by decide) (.single (by decide) h)))

/-- an operand that begins with no sign is an expression -/
theorem Derives.ofFactor {room : Nat} {ts : List Token} {e : Expr} (h : Derives room .factor ts e)
    (hsign : ¬ (current ts).IsSign) : Derives room .exp ts e := by
  have hterm : Derives room (.level .multiplicative) ts e := .single (by decide) (.base h)
  exact .ofSum (.unsigned hterm hsign)

theorem Derives.ofIdentifier (room : Nat) (name : String) (column : Nat) :
    Derives room .exp [⟨.identifier name, column⟩] (.identifier name column) :=
  .ofFactor .identifier (by rintro (h | h) <;> cases h)

theorem Derives.ofNumber (room : Nat) (v : Int64) (column : Nat) :
    Derives room .exp [⟨.number v, column⟩] (.number v) := by
  have hfactor : Derives room .factor ([] ++ [⟨.number v, column⟩]) (.number v) := .number (by simp)
  exact .ofFactor hfactor (by rintro (h | h) <;> cases h)

/-! ## Lines -/

/-- the tokens of a whole line -/
inductive IsStatement : List Token → Prop
  | expression {ts : List Token} {e : Expr} : Derives maxNesting .exp ts e → IsStatement ts
  | assignment {name : String} {c₁ c₂ : Nat} {ts : List Token} {e : Expr} :
      Derives maxNesting .exp ts e →
      IsStatement (⟨.identifier name, c₁⟩ :: ⟨.symbol .equals, c₂⟩ :: ts)
  | summation {name : String} {c₁ c₂ c₃ c₄ c₅ : Nat} {ls us bs : List Token} {lower upper body : Expr} :
      Derives maxNesting .exp ls lower → Derives maxNesting .exp us upper → Derives maxNesting .exp bs body →
      IsStatement (⟨.keyword .sum, c₁⟩ :: ⟨.identifier name, c₂⟩ :: ⟨.keyword .bounds, c₃⟩ ::
        (ls ++ ⟨.symbol .ellipsis, c₄⟩ :: (us ++ ⟨.keyword .body, c₅⟩ :: bs)))

/-! ## How phrases begin -/

/-- a terminal that an operand may begin with -/
def Terminal.OpensOperand : Terminal → Prop
  | .number _ | .identifier _ | .symbol .openParen | .symbol .plus | .symbol .minus => True
  | _ => False

theorem Token.IsSign.opensOperand {t : Token} (h : t.IsSign) : t.terminal.OpensOperand := by
  rcases h with h | h <;> rw [h] <;> trivial

theorem Terminal.OpensOperand.ne_eof {t : Terminal} (h : t.OpensOperand) : t ≠ .eof := by
  rintro rfl; exact h

/-- a phrase begins like an operand -/
theorem Derives.opensOperand {room : Nat} {p : Phrase} {ts : List Token} {e : Expr} (h : Derives room p ts e) :
    (current ts).terminal.OpensOperand := by
  induction h with
  | single _ _ ih => exact ih
  | unsigned _ _ ih => exact ih
  | plus => trivial
  | minus => trivial
  | join _ _ _ ih => rw [current_append ih.ne_eof]; exact ih
  | base _ ih => exact ih
  | power _ _ ih => rw [current_append ih.ne_eof]; exact ih
  | group => trivial
  | emptyGroup => trivial
  | identifier => trivial
  | number hs =>
    rename_i signs
    cases signs with
    | nil => trivial
    | cons t signs => exact (hs t List.mem_cons_self).opensOperand

end LineCalc
