/-
Columns are labels: they are carried along and reported, and nothing is decided by them.

`Token.move f` puts a token from its column at the one that `f` gives, and diagnostics, trees and slots are moved the
same way. A walk of moved tokens comes to the moved result (`Walk.Follows`), as long as what it builds does so too
(`Meaning.Follows`); each construct of the grammar keeps this. The column 0, where a list of tokens that has run out
reads `eof` and where a new slot stands, has to stay.

Results:
- `Statement.run_move`: moving a line moves its diagnostic, and the store it leaves;
- `Session.dispatch_move`: the same for a line with its `help`, and before it `legality_move`, `scanned_move` and
  `lastColumn?_move` for what scanning makes of the line.
-/
import LineCalc.Proofs.Causes
import LineCalc.Proofs.Scanning

namespace LineCalc

/-! ## Moving -/

def Token.move (f : Nat → Nat) (t : Token) : Token :=
  { t with column := f t.column }

def Diagnostic.move (f : Nat → Nat) (d : Diagnostic) : Diagnostic :=
  { d with column := f d.column }

def Expr.move (f : Nat → Nat) : Expr → Expr
  | number v => .number v
  | identifier name column => .identifier name (f column)
  | negate e => .negate (e.move f)
  | binary op left right column => .binary op (left.move f) (right.move f) (f column)

def Slot.move (f : Nat → Nat) (slot : Slot) : Slot :=
  { slot with column := f slot.column }

def Store.move (f : Nat → Nat) (s : Store) : Store :=
  ⟨s.slots.map (Slot.move f)⟩

def Summation.move (f : Nat → Nat) (s : Summation) : Summation :=
  { s with column := f s.column, body := s.body.move f }

/-- a result, where `g` moves what it may yield -/
def moveResult {α β : Type} (f : Nat → Nat) (g : α → β) : Except Diagnostic α → Except Diagnostic β
  | .ok a => .ok (g a)
  | .error d => .error (d.move f)

/-- a result and the store it leaves -/
def moveBoth {α β : Type} (f : Nat → Nat) (g : α → β) (r : Except Diagnostic α × Store) :
    Except Diagnostic β × Store :=
  (moveResult f g r.1, r.2.move f)

theorem Token.terminal_move (f : Nat → Nat) (t : Token) : (t.move f).terminal = t.terminal := rfl

theorem current_move {f : Nat → Nat} (hf : f 0 = 0) (tokens : List Token) :
    current (tokens.map (Token.move f)) = (current tokens).move f := by
  cases tokens with
  | nil => simp [current, Token.move, hf]
  | cons t tokens => rfl

/-! ## Stores -/

namespace Store

variable {f : Nat → Nat} (s : Store)

theorem find?_move (f : Nat → Nat) (name : String) : (s.move f).find? name = (s.find? name).map (Slot.move f) := by
  simp only [move, find?, List.find?_map]
  rfl

theorem read_move (f : Nat → Nat) (name : String) (column : Nat) :
    (s.move f).read name (f column) = moveResult f id (s.read name column) := by
  rw [read, read, find?_move]
  cases s.find? name with
  | none => rfl
  | some slot =>
    have hvalue : (slot.move f).value? = slot.value? := rfl
    simp only [Option.map_some, hvalue]
    cases slot.value? <;> rfl

/-- a change that does not look at columns -/
theorem change_move (hf : f 0 = 0) (name : String) {h : Slot → Slot}
    (hh : ∀ slot, h (slot.move f) = (h slot).move f) : (s.move f).change name h = (s.change name h).move f := by
  obtain ⟨slots⟩ := s
  simp only [change, move, Store.mk.injEq]
  have hfresh : (Slot.fresh name).move f = Slot.fresh name := by simp [Slot.fresh, Slot.move, hf]
  induction slots with
  | nil => simp [changeSlots, ← hh, hfresh]
  | cons slot rest ih =>
    by_cases hname : slot.name = name
    · have hmoved : (slot.move f).name = name := hname
      simp [changeSlots, hname, hmoved, hh]
    · have hmoved : (slot.move f).name ≠ name := hname
      simp [changeSlots, hname, hmoved, ih]

theorem expose_move (hf : f 0 = 0) (name : String) : (s.move f).expose name = (s.expose name).move f :=
  s.change_move hf name fun _ => rfl

theorem assign_move (hf : f 0 = 0) (name : String) (v : Int64) :
    (s.move f).assign name v = (s.assign name v).move f :=
  s.change_move hf name fun _ => rfl

end Store

/-! ## Meanings -/

theorem Operator.apply_move (f : Nat → Nat) (op : Operator) (l r : Int64) (column : Nat) :
    op.apply l r (f column) = moveResult f id (op.apply l r column) := by
  cases op with
  | divide => simp only [apply]; split <;> rfl
  | modulo => simp only [apply]; split <;> rfl
  | power =>
    simp only [apply, raise]
    split_ifs <;> rfl
  | _ => rfl

/-- `m'` builds from moved parts what `m` builds, moved -/
structure Meaning.Follows {α β : Type} (f : Nat → Nat) (g : α → β) (m : Meaning α) (m' : Meaning β) : Prop where
  number : ∀ v, m'.number v = g (m.number v)
  identifier : ∀ name column, m'.identifier name (f column) = moveResult f g (m.identifier name column)
  negate : ∀ a, m'.negate (g a) = g (m.negate a)
  binary : ∀ op l r column, m'.binary op (g l) (g r) (f column) = moveResult f g (m.binary op l r column)

namespace Meaning

variable {α β : Type} {f : Nat → Nat} {g : α → β} {m : Meaning α} {m' : Meaning β}

theorem value_follows (f : Nat → Nat) (store : Store) : Follows f id (value store) (value (store.move f)) where
  number _ := rfl
  identifier name column := store.read_move f name column
  negate _ := rfl
  binary op l r column := op.apply_move f l r column

theorem tree_follows (f : Nat → Nat) : Follows f (Expr.move f) tree tree where
  number _ := rfl
  identifier _ _ := rfl
  negate _ := rfl
  binary _ _ _ _ := rfl

theorem Follows.interpret (h : Follows f g m m') (e : Expr) :
    m'.interpret (e.move f) = moveResult f g (m.interpret e) := by
  induction e with
  | number v => exact congrArg _ (h.number v)
  | identifier name column => exact h.identifier name column
  | negate e ih =>
    simp only [Expr.move, Meaning.interpret, ih]
    cases m.interpret e with
    | error d => rfl
    | ok a => exact congrArg _ (h.negate a)
  | binary op left right column ihl ihr =>
    simp only [Expr.move, Meaning.interpret, ihl, ihr]
    cases m.interpret left with
    | error d => rfl
    | ok l =>
      cases m.interpret right with
      | error d => rfl
      | ok r => exact h.binary op l r column

end Meaning

theorem Expr.evaluate_move (f : Nat → Nat) (store : Store) (e : Expr) :
    (e.move f).evaluate (store.move f) = moveResult f id (e.evaluate store) := by
  rw [← Meaning.interpret_value, ← Meaning.interpret_value]
  exact (Meaning.value_follows f store).interpret e

/-! ## Walks -/

namespace Walk

variable {α β γ δ : Type} {f : Nat → Nat} {g : α → β} {h : γ → δ} {m : Meaning α} {m' : Meaning β} {w : Walk α}
  {w' : Walk β}

/-- on moved tokens, `w'` comes to what `w` comes to, moved -/
def Follows (f : Nat → Nat) (g : α → β) (w : Walk α) (w' : Walk β) : Prop :=
  ∀ tokens, w'.run (tokens.map (Token.move f)) =
    moveResult f (fun r => (g r.1, r.2.map (Token.move f))) (w.run tokens)

namespace Follows

theorem pure (f : Nat → Nat) (g : α → β) (a : α) : Follows f g (Pure.pure a) (Pure.pure (g a)) := fun _ => rfl

theorem bind (hw : Follows f g w w') {k : α → Walk γ} {k' : β → Walk δ} (hk : ∀ a, Follows f h (k a) (k' (g a))) :
    Follows f h (w >>= k) (w' >>= k') := by
  intro tokens
  rw [run_bind, run_bind, hw tokens]
  cases w.run tokens with
  | error d => rfl
  | ok r => exact hk r.1 r.2

theorem fail (f : Nat → Nat) (g : α → β) (d : Diagnostic) : Follows f g (Walk.fail d) (Walk.fail (d.move f)) :=
  fun _ => rfl

theorem lift {r : Except Diagnostic α} {r' : Except Diagnostic β} (hr : r' = moveResult f g r) :
    Follows f g (Walk.lift r) (Walk.lift r') := by
  intro tokens
  subst hr
  cases r <;> rfl

theorem peek (hf : f 0 = 0) : Follows f (Token.move f) peek peek :=
  fun tokens => by rw [run_peek, run_peek, current_move hf]; rfl

theorem advance (f : Nat → Nat) : Follows f id advance advance :=
  fun tokens => by rw [run_advance, run_advance, ← List.map_tail]; rfl

theorem accept (hf : f 0 = 0) (t : Terminal) : Follows f id (accept t) (accept t) := by
  refine (peek hf).bind fun found => ?_
  rw [Token.terminal_move]
  split
  · exact (advance f).bind fun _ => pure f id true
  · exact pure f id false

theorem expect (hf : f 0 = 0) (t : Terminal) : Follows f (Token.move f) (expect t) (expect t) := by
  refine (peek hf).bind fun found => ?_
  rw [Token.terminal_move]
  split
  · exact (advance f).bind fun _ => pure f _ found
  · exact fail f _ _

end Follows

/-! ## The constructs of the grammar -/

theorem foldRun_move (hm : Meaning.Follows f g m m') (level : Level) (hw : Follows f g w w') (left : α)
    (tokens : List Token) :
    foldRun m' level w' (g left) (tokens.map (Token.move f)) =
      moveResult f (fun r => (g r.1, r.2.map (Token.move f))) (foldRun m level w left tokens) := by
  -- every turn of the loop takes a token, so the length of what is left carries the induction
  induction hn : tokens.length using Nat.strongRecOn generalizing left tokens with
  | _ n ih =>
    subst hn
    cases tokens with
    | nil => rw [foldRun, List.map_nil, foldRun]; rfl
    | cons t tokens =>
      cases hop : level.operator? t.terminal with
      | none =>
        rw [foldRun_of_none hop, foldRun_of_none (by exact hop)]
        rfl
      | some op =>
        have hmoved : level.operator? (t.move f).terminal = some op := hop
        rw [List.map_cons, foldRun_of_some hop, foldRun_of_some hmoved, hw tokens]
        cases hr : w.run tokens with
        | error d => rfl
        | ok r =>
          have hbinary : m'.binary op (g left) (g r.1) (t.move f).column = moveResult f g (m.binary op left r.1 t.column) :=
            hm.binary op left r.1 t.column
          simp only [moveResult, Except.bind, hbinary]
          cases m.binary op left r.1 t.column with
          | error d => rfl
          | ok folded =>
            have hlt := (w.suffix hr).length_le
            exact ih r.2.length (by simp only [List.length_cons]; omega) folded r.2 rfl

theorem chain_follows (hm : Meaning.Follows f g m m') (level : Level) (hw : Follows f g w w') :
    Follows f g (chain m level w) (chain m' level w') :=
  hw.bind fun left tokens => foldRun_move hm level hw left tokens

theorem signs_move (f : Nat → Nat) (tokens : List Token) :
    signs (tokens.map (Token.move f)) = ((signs tokens).1, (signs tokens).2.map (Token.move f)) := by
  induction tokens with
  | nil => rfl
  | cons t tokens ih =>
    rw [List.map_cons, signs, signs, Token.terminal_move]
    split
    · rw [ih]
    · rw [ih]
    · rfl

theorem signRun_follows (f : Nat → Nat) : Follows f id signRun signRun :=
  fun tokens => congrArg Except.ok (signs_move f tokens)

theorem signedNumber_follows (hf : f 0 = 0) (hm : Meaning.Follows f g m m') :
    Follows f g (signedNumber m) (signedNumber m') := by
  refine (signRun_follows f).bind fun negative => (Follows.peek hf).bind fun found => ?_
  rw [Token.terminal_move]
  split
  next v _ =>
    refine (Follows.advance f).bind fun _ => ?_
    rw [id, hm.number]
    exact .pure f g _
  next => exact .fail f g _

theorem orEmpty_follows (hf : f 0 = 0) (hm : Meaning.Follows f g m m') (hw : Follows f g w w') :
    Follows f g (orEmpty m w) (orEmpty m' w') := by
  refine (Follows.peek hf).bind fun t => ?_
  rw [Token.terminal_move, hm.number]
  split
  · exact .pure f g _
  · exact hw

theorem group_follows (hf : f 0 = 0) (hm : Meaning.Follows f g m m') (hw : Follows f g w w') (column : Nat) :
    Follows f g (group m w column) (group m' w' (f column)) := by
  refine (orEmpty_follows hf hm hw).bind fun a => (Follows.accept hf _).bind fun closed => ?_
  cases closed with
  | false => exact .fail f g _
  | true => exact .pure f g a

theorem operand_follows (hf : f 0 = 0) (hm : Meaning.Follows f g m m') {inner : Option (Walk α)}
    {inner' : Option (Walk β)} (hin : Option.Rel (Follows f g) inner inner') :
    Follows f g (operand m inner) (operand m' inner') := by
  refine (Follows.peek hf).bind fun t => ?_
  rw [Token.terminal_move]
  split
  · refine (Follows.advance f).bind fun _ => ?_
    cases hin with
    | none => exact .fail f g _
    | some hw => exact group_follows hf hm hw t.column
  · exact .fail f g _
  next name _ => exact (Follows.advance f).bind fun _ => .lift (hm.identifier name t.column)
  · exact signedNumber_follows hf hm

theorem power_follows (hf : f 0 = 0) (hm : Meaning.Follows f g m m') (hw : Follows f g w w') :
    Follows f g (power m w) (power m' w') := by
  refine hw.bind fun base => (Follows.peek hf).bind fun t => ?_
  rw [Token.terminal_move]
  split
  · exact (Follows.advance f).bind fun _ => hw.bind fun exponent => .lift (hm.binary .power base exponent t.column)
  · exact .pure f g base

theorem sign_follows (hf : f 0 = 0) : Follows f id sign sign := by
  refine (Follows.accept hf _).bind fun minus => ?_
  cases minus with
  | true => exact .pure f id true
  | false => exact (Follows.accept hf _).bind fun _ => .pure f id false

theorem sum_follows (hf : f 0 = 0) (hm : Meaning.Follows f g m m') (hw : Follows f g w w') :
    Follows f g (sum m w) (sum m' w') := by
  refine (sign_follows hf).bind fun negative => hw.bind fun first => ?_
  cases negative with
  | false => exact fun tokens => foldRun_move hm .additive hw first tokens
  | true =>
    show Follows f g (fold m .additive w (m.negate first)) (fold m' .additive w' (m'.negate (g first)))
    rw [hm.negate]
    exact fun tokens => foldRun_move hm .additive hw (m.negate first) tokens

/-! ## Expressions -/

theorem levels_follows (hf : f 0 = 0) (hm : Meaning.Follows f g m m') (hw : Follows f g w w') :
    Follows f g (levels m w) (levels m' w') := by
  have hterm : Follows f g (chain m .multiplicative (power m w)) (chain m' .multiplicative (power m' w')) :=
    chain_follows hm .multiplicative (power_follows hf hm hw)
  have hshift : Follows f g (chain m .shift (sum m _)) (chain m' .shift (sum m' _)) :=
    chain_follows hm .shift (sum_follows hf hm hterm)
  exact chain_follows hm .bitOr (chain_follows hm .bitXor (chain_follows hm .bitAnd hshift))

theorem factor_follows (hf : f 0 = 0) (hm : Meaning.Follows f g m m') (room : Nat) :
    Follows f g (factor m room) (factor m' room) := by
  induction room with
  | zero => exact operand_follows hf hm .none
  | succ room ih => exact operand_follows hf hm (.some (levels_follows hf hm ih))

theorem expression_follows (hf : f 0 = 0) (hm : Meaning.Follows f g m m') :
    Follows f g (expression m) (expression m') :=
  levels_follows hf hm (factor_follows hf hm maxNesting)

end Walk

/-! ## Summations -/

namespace Summation

variable {f : Nat → Nat}

theorem walk_follows (hf : f 0 = 0) (store : Store) :
    Walk.Follows f (Summation.move f) (walk store) (walk (store.move f)) := by
  have hvalue := Walk.expression_follows hf (Meaning.value_follows f store)
  have htree := Walk.expression_follows hf (Meaning.tree_follows f)
  refine (Walk.Follows.expect hf _).bind fun _ => hvalue.bind fun lower => ?_
  refine (Walk.Follows.expect hf _).bind fun dots => hvalue.bind fun upper => ?_
  refine (Walk.Follows.expect hf _).bind fun _ => htree.bind fun body => ?_
  exact Walk.Follows.pure f (Summation.move f) ⟨lower, upper, dots.column, body⟩

theorem accumulate_move (hf : f 0 = 0) (name : String) (body : Expr) (count : Nat) (index total : Int64)
    (store : Store) :
    accumulate name (body.move f) count index total (store.move f) =
      moveBoth f id (accumulate name body count index total store) := by
  induction count generalizing index total store with
  | zero => rfl
  | succ count ih =>
    unfold accumulate
    dsimp only
    rw [store.assign_move hf, Expr.evaluate_move]
    cases body.evaluate (store.assign name index) with
    | error d => rfl
    | ok v => exact ih _ _ _

theorem run_move (hf : f 0 = 0) (s : Summation) (name : String) (store : Store) :
    (s.move f).run name (store.move f) = moveBoth f id (s.run name store) := by
  have hcount : (s.move f).count = s.count := rfl
  unfold run
  rw [hcount]
  split
  · rfl
  · have haccumulate := accumulate_move hf name s.body s.count s.lower 0 (store.assign name s.lower)
    rw [← store.assign_move hf] at haccumulate
    exact haccumulate

end Summation

/-! ## Statements -/

namespace Statement

variable {f : Nat → Nat}

/-- a statement with the tokens after it, moved -/
abbrev moveRest (f : Nat → Nat) (r : Int64 × List Token) : Int64 × List Token :=
  (r.1, r.2.map (Token.move f))

theorem target_follows (hf : f 0 = 0) : Walk.Follows f id target target := by
  refine (Walk.Follows.peek hf).bind fun t => ?_
  rw [Token.terminal_move]
  split
  next name _ => exact (Walk.Follows.advance f).bind fun _ => .pure f id name
  next => exact .fail f id _

theorem expression_move (hf : f 0 = 0) (tokens : List Token) (store : Store) :
    expression (tokens.map (Token.move f)) (store.move f) = moveBoth f (moveRest f) (expression tokens store) :=
  Prod.ext (Walk.expression_follows hf (Meaning.value_follows f store) tokens) rfl

theorem assignment_move (hf : f 0 = 0) (name : String) (tokens : List Token) (store : Store) :
    assignment name (tokens.map (Token.move f)) (store.move f) =
      moveBoth f (moveRest f) (assignment name tokens store) := by
  have hvalue := Walk.expression_follows hf (Meaning.value_follows f (store.expose name)) tokens
  unfold assignment
  dsimp only
  rw [store.expose_move hf, hvalue]
  cases (Walk.expression (.value (store.expose name))).run tokens with
  | error d => rfl
  | ok r => exact Prod.ext rfl ((store.expose name).assign_move hf name r.1)

theorem summation_move (hf : f 0 = 0) (tokens : List Token) (store : Store) :
    summation (tokens.map (Token.move f)) (store.move f) = moveBoth f (moveRest f) (summation tokens store) := by
  unfold summation
  rw [target_follows hf tokens]
  cases target.run tokens with
  | error d => rfl
  | ok r =>
    obtain ⟨name, rest⟩ := r
    have hwalk := Summation.walk_follows hf (store.expose name) rest
    simp only [moveResult, id, store.expose_move hf, hwalk]
    cases (Summation.walk (store.expose name)).run rest with
    | error d => rfl
    | ok r =>
      have hrun := Summation.run_move hf r.1 name (store.expose name)
      simp only [hrun]
      refine Prod.ext ?_ rfl
      simp only [moveBoth]
      cases (r.1.run name (store.expose name)).1 <;> rfl

theorem leading_move (hf : f 0 = 0) (tokens : List Token) (store : Store) :
    leading (tokens.map (Token.move f)) (store.move f) = moveBoth f (moveRest f) (leading tokens store) := by
  by_cases hsum : (current tokens).terminal = .keyword .sum
  · obtain ⟨c₁, tail, rfl⟩ := exists_cons_of_terminal hsum (by simp)
    exact summation_move hf tail store
  by_cases hassign : ∃ name, (current tokens).terminal = .identifier name ∧
      (current tokens.tail).terminal = .symbol .equals
  · obtain ⟨name, hname, hequals⟩ := hassign
    obtain ⟨c₁, tail, rfl⟩ := exists_cons_of_terminal hname (by simp)
    obtain ⟨c₂, tail, rfl⟩ := exists_cons_of_terminal hequals (by simp)
    exact assignment_move hf name tail store
  · have hfirst : (current (tokens.map (Token.move f))).terminal = (current tokens).terminal := by
      rw [current_move hf, Token.terminal_move]
    have hsecond : (current (tokens.map (Token.move f)).tail).terminal = (current tokens.tail).terminal := by
      rw [← List.map_tail, current_move hf, Token.terminal_move]
    have hplain := fun name hname hequals => hassign ⟨name, hname, hequals⟩
    rw [leading_of_expression hsum hplain, leading_of_expression]
    · exact expression_move hf tokens store
    · rwa [hfirst]
    · rwa [hfirst, hsecond]

theorem conclude_move (hf : f 0 = 0) (v : Int64) (rest : List Token) :
    conclude v (rest.map (Token.move f)) = moveResult f id (conclude v rest) := by
  unfold conclude
  dsimp only
  rw [current_move hf, Token.terminal_move]
  split <;> rfl

/-- **Moving a line moves what comes of it**, and nothing else: the value is the same, a diagnostic has the same kind
and note at the moved column, and the store it leaves is the moved one. -/
theorem run_move (hf : f 0 = 0) (tokens : List Token) (store : Store) :
    run (tokens.map (Token.move f)) (store.move f) = moveBoth f id (run tokens store) := by
  have hleading := leading_move hf tokens store
  have hstore : (leading (tokens.map (Token.move f)) (store.move f)).2 = (leading tokens store).2.move f := by
    rw [hleading, moveBoth]
  refine Prod.ext ?_ hstore
  rw [run_fst, hleading, moveBoth, moveBoth, run_fst]
  cases (leading tokens store).1 with
  | error d => rfl
  | ok r => exact conclude_move hf r.1 r.2

end Statement

/-! ## Lines -/

theorem legality_move (f : Nat → Nat) (tokens : List Token) :
    legality (tokens.map (Token.move f)) = moveResult f id (legality tokens) := by
  induction tokens with
  | nil => rfl
  | cons t tokens ih =>
    rw [List.map_cons, legality, legality, Token.terminal_move]
    split
    · rfl
    · exact ih

theorem scanned_move (f : Nat → Nat) (tokens : List Token) :
    scanned (tokens.map (Token.move f)) = (scanned tokens).map (Token.move f) := by
  rw [scanned, scanned, List.takeWhile_map]
  rfl

theorem lastColumn?_move (f : Nat → Nat) (name : String) (ts : List Token) :
    lastColumn? name (ts.map (Token.move f)) = (lastColumn? name ts).map f := by
  rw [lastColumn?, lastColumn?, ← List.map_reverse, List.find?_map, Option.map_map, Option.map_map]
  rfl

theorem Session.dispatch_move {f : Nat → Nat} (hf : f 0 = 0) (tokens : List Token) (store : Store) :
    dispatch (tokens.map (Token.move f)) (store.move f) = moveBoth f id (dispatch tokens store) := by
  unfold dispatch
  dsimp only
  rw [current_move hf, ← List.map_tail, current_move hf, Token.terminal_move, Token.terminal_move,
    Statement.run_move hf]
  split
  · rfl
  · refine Prod.ext ?_ rfl
    simp only [moveBoth]
    split <;> rfl
  · refine Prod.ext ?_ rfl
    simp only [moveBoth]
    cases (Statement.run tokens store).1 <;> rfl

end LineCalc
