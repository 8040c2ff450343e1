/-
What a line sees of a session: the values that may be read of the names it mentions, and nothing else.

After the names of a line are noted, two stores with the same readable values have the same slots for them: the columns
are those of the line, and a value that may not be read is 0 in both (`Store.Kept`). From then on the stores are only
asked for names of the line. `Store.AgreeOn` says that two stores have the same slots for the names among some tokens;
every construct keeps it and comes to the same result on both (`Alike`).

Result:
- `evaluate_isolated`: a line has the same outcome in two sessions whose readable values agree on its names, and they
  agree on them afterwards, columns included.
-/
import LineCalc.Proofs.Lookahead
import LineCalc.Proofs.Footprint

namespace LineCalc

/-! ## Stores that agree -/

namespace Store

/-- the value of `name` that may be read -/
def value? (s : Store) (name : String) : Option Int64 :=
  (s.find? name).bind Slot.value?

/-- the slots for the names among `ts` are the same -/
def AgreeOn (ts : List Token) (s t : Store) : Prop :=
  ∀ name column, ⟨.identifier name, column⟩ ∈ ts → s.find? name = t.find? name

variable {ts us : List Token} {s t : Store}

theorem AgreeOn.mono (h : AgreeOn ts s t) (hsub : us ⊆ ts) : AgreeOn us s t :=
  fun name column hmem => h name column (hsub hmem)

theorem AgreeOn.change (h : AgreeOn ts s t) (name : String) {f : Slot → Slot}
    (hf : ∀ slot, (f slot).name = slot.name) : AgreeOn ts (s.change name f) (t.change name f) := by
  intro other column hmem
  by_cases hother : other = name
  · subst hother
    rw [find?_change_self s other f hf, find?_change_self t other f hf, h other column hmem]
  · rw [find?_change_of_ne s f hf hother, find?_change_of_ne t f hf hother, h other column hmem]

theorem AgreeOn.expose (h : AgreeOn ts s t) (name : String) : AgreeOn ts (s.expose name) (t.expose name) :=
  h.change name fun _ => rfl

theorem AgreeOn.assign (h : AgreeOn ts s t) (name : String) (v : Int64) :
    AgreeOn ts (s.assign name v) (t.assign name v) :=
  h.change name fun _ => rfl

theorem value?_eq (s : Store) (name : String) :
    s.value? name = if (s.content name).2 then some (s.content name).1 else none := by
  rw [value?, content]
  cases s.find? name <;> rfl

/-- a hidden value is 0, so all that is known of a name is the value that may be read -/
theorem Kept.content_eq (h : s.Kept) (name : String) :
    s.content name = (s.value? name).elim (0, false) fun v => (v, true) := by
  rw [value?_eq]
  cases hassigned : (s.content name).2 with
  | true => exact Prod.ext rfl hassigned
  | false => exact Prod.ext (h.hidden name hassigned) hassigned

/-- noting the names of a line leaves nothing of the two stores but the values that may be read -/
theorem Kept.agreeOn_noteAll (hs : s.Kept) (ht : t.Kept)
    (h : ∀ name column, ⟨.identifier name, column⟩ ∈ ts → s.value? name = t.value? name) :
    AgreeOn ts (s.noteAll ts) (t.noteAll ts) := by
  intro name column hmem
  rw [find?_noteAll, find?_noteAll]
  cases hlast : lastColumn? name ts with
  | none => exact absurd rfl (lastColumn?_eq_none_iff.1 hlast _ hmem)
  | some last => rw [hs.content_eq, ht.content_eq, h name column hmem]

theorem AgreeOn.value?_eq (h : AgreeOn ts s t) {name : String} {column : Nat}
    (hmem : ⟨.identifier name, column⟩ ∈ ts) : s.value? name = t.value? name := by
  rw [value?, h name column hmem]
  rfl

theorem AgreeOn.read_eq (h : AgreeOn ts s t) {name : String} {column : Nat}
    (hmem : ⟨.identifier name, column⟩ ∈ ts) : s.read name column = t.read name column := by
  unfold read
  rw [h name column hmem]

end Store

/-! ## Expressions -/

section
variable {ts : List Token} {s t : Store}

theorem Expr.evaluate_congr (h : s.AgreeOn ts t) {e : Expr} (he : e.WrittenIn ts) :
    e.evaluate s = e.evaluate t := by
  induction e with
  | number v => rfl
  | identifier name column => exact h.read_eq he
  | negate e ih => rw [evaluate, evaluate, ih he]
  | binary op left right column ihl ihr => rw [evaluate, evaluate, ihl he.2.1, ihr he.2.2]

/-- what is made of an ending asks the store for names of its tokens only -/
theorem Meaning.outcome_congr (h : s.AgreeOn ts t) {room : Nat} {p : Phrase} {next : Token} {ending : Ending}
    (hfit : Fits room p ts next ending) : (value s).outcome ending = (value t).outcome ending := by
  have hexpr : ∀ {e : Expr}, e.WrittenIn ts → (value s).interpret e = (value t).interpret e := by
    intro e he
    rw [interpret_value, interpret_value, Expr.evaluate_congr h he]
  cases hfit with
  | phrase he => exact hexpr he.writtenIn
  | @refusal es d _ _ hes =>
    induction es with
    | nil => rfl
    | cons e es ih =>
      rw [outcome_refusal_cons, outcome_refusal_cons, hexpr (hes e List.mem_cons_self),
        ih fun e he => hes e (List.mem_cons_of_mem _ he)]

theorem Walk.expression_congr {tokens : List Token} (h : s.AgreeOn tokens t) :
    (expression (.value s)).run tokens = (expression (.value t)).run tokens := by
  obtain ⟨us, rest, ending, rfl, hfit, hyield⟩ := expressionIn_settles maxNesting tokens
  rw [expression, expression, hyield Int64 (.value s) rest rfl, hyield Int64 (.value t) rest rfl,
    Meaning.outcome_congr (h.mono (List.subset_append_left us rest)) hfit]

theorem Walk.run_bind_congr {α β : Type} {w w' : Walk α} {f f' : α → Walk β} {tokens : List Token}
    (hw : w.run tokens = w'.run tokens) (hf : ∀ a rest, rest <:+ tokens → (f a).run rest = (f' a).run rest) :
    (w >>= f).run tokens = (w' >>= f').run tokens := by
  rw [run_bind, run_bind, hw]
  cases hrun : w'.run tokens with
  | error d => rfl
  | ok r => exact hf r.1 r.2 (w'.suffix hrun)

theorem Summation.walk_congr {tokens : List Token} (h : s.AgreeOn tokens t) :
    (walk s).run tokens = (walk t).run tokens := by
  refine Walk.run_bind_congr rfl fun _ rest₁ h₁ => ?_
  have h₁ := h.mono h₁.subset
  refine Walk.run_bind_congr (Walk.expression_congr h₁) fun _ rest₂ h₂ => ?_
  have h₂ := h₁.mono h₂.subset
  refine Walk.run_bind_congr rfl fun _ rest₃ h₃ => ?_
  exact Walk.run_bind_congr (Walk.expression_congr (h₂.mono h₃.subset)) fun _ _ _ => rfl

/-- the body of a summation is written in the line -/
theorem Summation.body_writtenIn {tokens rest : List Token} {sum : Summation}
    (h : (walk s).run tokens = .ok (sum, rest)) : sum.body.WrittenIn tokens := by
  obtain ⟨c₃, c₅, ls, us, bs, lower, upper, -, -, hb, -, -, rfl⟩ := walk_eq_ok h
  refine hb.writtenIn.mono fun t ht => ?_
  simp [ht]

end

/-! ## Statements -/

/-- two runs that come to the same result, on stores that agree on the names among `ts` afterwards -/
def Alike {α : Type} (ts : List Token) (r q : Except Diagnostic α × Store) : Prop :=
  r.1 = q.1 ∧ r.2.AgreeOn ts q.2

section
variable {ts : List Token} {s t : Store}

theorem Summation.accumulate_alike {body : Expr} (hbody : body.WrittenIn ts) (name : String) (count : Nat)
    (index total : Int64) (h : s.AgreeOn ts t) :
    Alike ts (accumulate name body count index total s) (accumulate name body count index total t) := by
  induction count generalizing index total s t with
  | zero => exact ⟨rfl, h⟩
  | succ count ih =>
    have h := h.assign name index
    unfold accumulate
    dsimp only
    rw [Expr.evaluate_congr h hbody]
    split
    next v _ => exact ih _ _ h
    next => exact ⟨rfl, h⟩

theorem Summation.run_alike {sum : Summation} (hbody : sum.body.WrittenIn ts) (name : String) (h : s.AgreeOn ts t) :
    Alike ts (sum.run name s) (sum.run name t) := by
  unfold run
  split
  · exact ⟨rfl, h⟩
  · exact accumulate_alike hbody name _ _ _ (h.assign name sum.lower)

namespace Statement

theorem assignment_alike (name : String) {tokens : List Token} (hsub : tokens ⊆ ts) (h : s.AgreeOn ts t) :
    Alike ts (assignment name tokens s) (assignment name tokens t) := by
  have h := h.expose name
  unfold assignment
  dsimp only
  rw [Walk.expression_congr (h.mono hsub)]
  split
  · exact ⟨rfl, h.assign name _⟩
  · exact ⟨rfl, h⟩

theorem summation_alike {tokens : List Token} (hsub : tokens ⊆ ts) (h : s.AgreeOn ts t) :
    Alike ts (summation tokens s) (summation tokens t) := by
  unfold summation
  split
  next => exact ⟨rfl, h⟩
  next name rest htarget =>
    have h := h.expose name
    have hrest : rest ⊆ ts := fun u hu => hsub ((target.suffix htarget).subset hu)
    dsimp only
    rw [Summation.walk_congr (h.mono hrest)]
    split
    next => exact ⟨rfl, h⟩
    next sum left hwalk =>
      have halike := Summation.run_alike ((Summation.body_writtenIn hwalk).mono hrest) name h
      exact ⟨by rw [halike.1], halike.2⟩

theorem leading_alike {tokens : List Token} (h : s.AgreeOn tokens t) :
    Alike tokens (leading tokens s) (leading tokens t) := by
  unfold leading
  split
  next => exact summation_alike (List.subset_cons_self _ _) h
  next => exact assignment_alike _ (fun u hu => by simp [hu]) h
  next => exact ⟨Walk.expression_congr h, h⟩

theorem run_alike {tokens : List Token} (h : s.AgreeOn tokens t) : Alike tokens (run tokens s) (run tokens t) := by
  obtain ⟨hresult, hstore⟩ := leading_alike h
  refine ⟨?_, hstore⟩
  rw [run_fst, run_fst, hresult]

end Statement

/-! ## Lines -/

namespace Session

theorem dispatch_alike {tokens : List Token} (h : s.AgreeOn tokens t) :
    Alike tokens (dispatch tokens s) (dispatch tokens t) := by
  unfold dispatch
  dsimp only
  split
  · exact ⟨rfl, h⟩
  · exact ⟨rfl, h⟩
  · obtain ⟨hresult, hstore⟩ := Statement.run_alike h
    exact ⟨by rw [hresult], hstore⟩

/-- all names of a legal line are scanned -/
theorem agreeOn_of_legal {line : String} (hlegal : legality (tokensOf line) = .ok ())
    (h : s.AgreeOn (scanned (tokensOf line)) t) : s.AgreeOn (tokensOf line) t := by
  intro name column hmem
  rw [eq_scanned_append hlegal] at hmem
  rcases List.mem_append.1 hmem with hmem | hmem
  · exact h name column hmem
  · cases List.mem_singleton.1 hmem

/-- two stores that show the same values for the names of a line -/
theorem read_alike {line : String} (hs : s.Kept) (ht : t.Kept)
    (h : ∀ name column, ⟨.identifier name, column⟩ ∈ tokensOf line → s.value? name = t.value? name) :
    Alike (scanned (tokensOf line)) (read line s) (read line t) := by
  have hsub : scanned (tokensOf line) ⊆ tokensOf line := (List.takeWhile_prefix _).subset
  have hagree := hs.agreeOn_noteAll ht fun name column hmem => h name column (hsub hmem)
  rw [read_eq, read_eq]
  split
  next => exact ⟨rfl, hagree⟩
  next hlegal =>
    obtain ⟨hresult, hstore⟩ := dispatch_alike (agreeOn_of_legal hlegal hagree)
    exact ⟨hresult, hstore.mono hsub⟩

end Session

end

namespace Session

/-- **A line sees nothing of a session but the values of its names.** Take any two sessions with one limit, and a line
such that, of every name on it, both show the same value or none. Then the line has the same outcome in both, down to
the column and the note of a diagnostic; and where it is short enough to be scanned, both show the same value and the
same column for every name that was noted. -/
theorem evaluate_isolated {limit : Nat} {history₁ history₂ : List String} {line : String}
    (h : ∀ name column, ⟨.identifier name, column⟩ ∈ tokensOf line →
      (after limit history₁).store.value? name = (after limit history₂).store.value? name) :
    let r₁ := (after limit history₁).evaluate line
    let r₂ := (after limit history₂).evaluate line
    r₁.1 = r₂.1 ∧
      (line.utf8ByteSize < limit → ∀ name column, ⟨.identifier name, column⟩ ∈ scanned (tokensOf line) →
        r₁.2.store.value? name = r₂.2.store.value? name ∧
          (r₁.2.store.find? name).map Slot.column = (r₂.2.store.find? name).map Slot.column) := by
  dsimp only
  rcases Nat.lt_or_ge line.utf8ByteSize limit with hshort | hlong
  · obtain ⟨hresult, hstore⟩ := read_alike (kept_after limit history₁) (kept_after limit history₂) h
    rw [evaluate_of_short (by rwa [limit_after]), evaluate_of_short (by rwa [limit_after])]
    refine ⟨hresult, fun _ name column hmem => ⟨hstore.value?_eq hmem, ?_⟩⟩
    show Option.map Slot.column (Store.find? _ name) = Option.map Slot.column (Store.find? _ name)
    rw [hstore name column hmem]
  · rw [evaluate_of_long (by rwa [limit_after]), evaluate_of_long (by rwa [limit_after]), limit_after, limit_after]
    exact ⟨rfl, fun hshort => absurd hshort (Nat.not_lt.2 hlong)⟩

/-- `y + x`, where `x` was made readable by a line that failed, or was set to 0 -/
theorem evaluate_isolated_from_failure :
    let s := after defaultLimit ["x = y"]
    let t := after defaultLimit ["z = 3", "x = 0"]
    s.store ≠ t.store ∧
      (∀ name column, ⟨.identifier name, column⟩ ∈ tokensOf "y + x" → s.store.value? name = t.store.value? name) ∧
      (s.evaluate "y + x").1 = (t.evaluate "y + x").1 := by
  intro s t
  have hs : s.store = ⟨[⟨"x", 0, true, 1⟩, ⟨"y", 0, false, 5⟩]⟩ := by decide +kernel
  have ht : t.store = ⟨[⟨"z", 3, true, 1⟩, ⟨"x", 0, true, 1⟩]⟩ := by decide +kernel
  have hline : tokensOf "y + x" = [⟨.identifier "y", 1⟩, ⟨.symbol .plus, 3⟩, ⟨.identifier "x", 5⟩, ⟨.eof, 6⟩] := by
    decide +kernel
  have hvalues : ∀ name column, ⟨.identifier name, column⟩ ∈ tokensOf "y + x" →
      s.store.value? name = t.store.value? name := by
    intro name column hmem
    rw [hs, ht]
    simp only [hline, List.mem_cons, Token.mk.injEq, Terminal.identifier.injEq, reduceCtorEq, false_and,
      List.not_mem_nil, or_self, or_false, false_or] at hmem
    rcases hmem with ⟨rfl, -⟩ | ⟨rfl, -⟩ <;> decide
  exact ⟨by rw [hs, ht]; decide, hvalues, (evaluate_isolated hvalues).1⟩

end Session

end LineCalc
