/-
What a line leaves in the store: the names it mentions, and at most one value.

`Session.after` are the sessions that lines can lead to. Of their stores two things are kept by every line (`Kept`): no
name stands twice, and a name that was never given a value hides a 0.

A line first notes its names (`Store.noteAll`). After that it changes at most the value of its target, the name in front
of `=` or behind `sum` (`Statement.target?`), and only if nothing on the line is illegal. `Store.Touched` says so of two
stores; it is transitive, and holds of every step of a statement, whether the line has a value in the end or not
(`Session.read_touched`).

Result:
- `evaluate_footprint`: the store after any line, told from the store before and the tokens of the line.
-/
import LineCalc.Proofs.Acceptance
import LineCalc.Proofs.Scanning

namespace LineCalc

/-- the name that a line of these tokens gives a value to -/
def Statement.target? (tokens : List Token) : Option String :=
  match (current tokens).terminal, (current tokens.tail).terminal with
  | .identifier name, .symbol .equals => some name
  | .keyword .sum, .identifier name => some name
  | _, _ => none

namespace Store

/-- `after` is `before`, but for the value of `name?` and whether it may be read -/
inductive Touched (name? : Option String) (before : Store) : (after : Store) → Prop
  | unchanged : Touched name? before before
  | changed {name : String} {f : Slot → Slot} :
      name? = some name → (∀ slot, (f slot).name = slot.name) → (∀ slot, (f slot).column = slot.column) →
      (∀ slot, (f slot).assigned = true) → Touched name? before (before.change name f)

namespace Touched

variable {name? : Option String} {before mid after : Store}

theorem expose (before : Store) (name : String) : Touched (some name) before (before.expose name) :=
  .changed rfl (fun _ => rfl) (fun _ => rfl) fun _ => rfl

theorem assign (before : Store) (name : String) (v : Int64) : Touched (some name) before (before.assign name v) :=
  .changed rfl (fun _ => rfl) (fun _ => rfl) fun _ => rfl

theorem trans (h : Touched name? before mid) (h' : Touched name? mid after) : Touched name? before after := by
  cases h with
  | unchanged => exact h'
  | @changed name f hname hf hcolumn hassigned =>
    cases h' with
    | unchanged => exact .changed hname hf hcolumn hassigned
    | @changed other g hother hg hcolumn' hassigned' =>
      cases hname.symm.trans hother
      rw [change_change _ name g hf]
      exact .changed hname (fun slot => (hg _).trans (hf slot)) (fun slot => (hcolumn' _).trans (hcolumn slot))
        fun slot => hassigned' _

/-- a target that is in the store gets no new slot -/
theorem names_eq (h : Touched name? before after) (hname : ∀ name, name? = some name → name ∈ before.names) :
    after.names = before.names := by
  cases h with
  | unchanged => rfl
  | @changed name f heq hf _ _ => rw [names_change _ name f hf, if_pos (hname name heq)]

theorem find?_of_ne (h : Touched name? before after) {name : String} (hname : name? ≠ some name) :
    after.find? name = before.find? name := by
  cases h with
  | unchanged => rfl
  | @changed target f heq hf _ _ => exact before.find?_change_of_ne f hf fun hne => hname (hne ▸ heq)

/-- a slot stays where it is noted -/
theorem column_eq (h : Touched name? before after) {name : String} {slot : Slot}
    (hslot : before.find? name = some slot) :
    ∃ slot', after.find? name = some slot' ∧ slot'.column = slot.column := by
  cases h with
  | unchanged => exact ⟨slot, hslot, rfl⟩
  | @changed target f _ hf hcolumn _ =>
    by_cases hname : name = target
    · subst hname
      refine ⟨f slot, ?_, hcolumn slot⟩
      rw [find?_change_self before name f hf, hslot]
      rfl
    · exact ⟨slot, by rw [find?_change_of_ne before f hf hname, hslot], rfl⟩

section
variable {s : Store} {ts : List Token} (h : (s.noteAll ts).Touched name? after)
include h

/-- a target that was noted gets no new slot -/
theorem names_noteAll (hname? : ∀ name, name? = some name → ∃ t ∈ ts, t.terminal = .identifier name) :
    after.names = (s.noteAll ts).names :=
  h.names_eq fun name hname => (s.mem_names_noteAll ts name).2 (Or.inr (hname? name hname))

theorem column_noteAll {name : String} {column : Nat} (hlast : lastColumn? name ts = some column) :
    (after.find? name).map Slot.column = some column := by
  have hnoted := s.find?_noteAll ts name
  rw [hlast] at hnoted
  obtain ⟨slot, hslot, hcolumn⟩ := h.column_eq hnoted
  rw [hslot, Option.map_some, hcolumn]

theorem find?_noteAll (hname? : ∀ name, name? = some name → ∃ t ∈ ts, t.terminal = .identifier name) {name : String}
    (hlast : lastColumn? name ts = none) : after.find? name = s.find? name := by
  have hne : name? ≠ some name := by
    intro hname
    obtain ⟨t, ht, hterminal⟩ := hname? name hname
    exact lastColumn?_eq_none_iff.1 hlast t ht hterminal
  rw [h.find?_of_ne hne, s.find?_noteAll, hlast]

theorem content_noteAll {name : String} (hne : name? ≠ some name) : after.content name = s.content name := by
  rw [content, h.find?_of_ne hne]
  exact s.content_noteAll ts name

end

end Touched

end Store

/-! ## What a line touches -/

theorem Summation.accumulate_touched (name : String) (body : Expr) (count : Nat) (index total : Int64) (store : Store) :
    store.Touched (some name) (accumulate name body count index total store).2 := by
  induction count generalizing index total store with
  | zero => exact .unchanged
  | succ count ih =>
    unfold accumulate
    dsimp only
    split
    next => exact (Store.Touched.assign store name index).trans (ih _ _ _)
    next => exact .assign store name index

theorem Summation.run_touched (s : Summation) (name : String) (store : Store) :
    store.Touched (some name) (s.run name store).2 := by
  unfold run
  split
  · exact .unchanged
  · exact (Store.Touched.assign store name s.lower).trans (accumulate_touched _ _ _ _ _ _)

namespace Statement

theorem assignment_touched (name : String) (tokens : List Token) (store : Store) :
    store.Touched (some name) (assignment name tokens store).2 := by
  unfold assignment
  dsimp only
  split
  · exact (Store.Touched.expose store name).trans (.assign _ name _)
  · exact .expose store name

theorem summation_touched (column : Nat) (tokens : List Token) (store : Store) :
    store.Touched (target? (⟨.keyword .sum, column⟩ :: tokens)) (summation tokens store).2 := by
  unfold summation
  split
  next => exact .unchanged
  next name after htarget =>
    obtain ⟨c, rfl⟩ := target_sound htarget
    dsimp only
    split
    · exact .expose store name
    · exact (Store.Touched.expose store name).trans (Summation.run_touched _ name _)

theorem run_touched (tokens : List Token) (store : Store) : store.Touched (target? tokens) (run tokens store).2 := by
  show store.Touched (target? tokens) (leading tokens store).2
  unfold leading
  split
  · exact summation_touched _ _ store
  · exact assignment_touched _ _ store
  · exact .unchanged

/-- the `eof` of a line has no part in its target -/
theorem target?_append_eof (ts : List Token) (column : Nat) : target? (ts ++ [⟨.eof, column⟩]) = target? ts := by
  match ts with
  | [] => rfl
  | [_] => rfl
  | _ :: _ :: _ => rfl

theorem exists_of_target? {ts : List Token} {name : String} (h : target? ts = some name) :
    ∃ t ∈ ts, t.terminal = .identifier name := by
  unfold target? at h
  split at h
  next hfirst _ =>
    cases h
    obtain ⟨column, rest, rfl⟩ := exists_cons_of_terminal hfirst (by simp)
    exact ⟨_, List.mem_cons_self, rfl⟩
  next hsecond =>
    cases h
    obtain ⟨column, rest, htail⟩ := exists_cons_of_terminal hsecond (by simp)
    exact ⟨⟨_, column⟩, List.mem_of_mem_tail (by rw [htail]; exact List.mem_cons_self), rfl⟩
  next => cases h

end Statement

namespace Session

theorem dispatch_touched (tokens : List Token) (store : Store) :
    store.Touched (Statement.target? tokens) (dispatch tokens store).2 := by
  unfold dispatch
  dsimp only
  split
  · exact .unchanged
  · exact .unchanged
  · exact Statement.run_touched tokens store

theorem target?_scanned {line : String} (h : legality (tokensOf line) = .ok ()) :
    Statement.target? (scanned (tokensOf line)) = Statement.target? (tokensOf line) := by
  conv_rhs => rw [eq_scanned_append h]
  rw [Statement.target?_append_eof]

/-- a line notes its names; then it touches its target at most, and that only if it is legal -/
theorem read_touched (line : String) (store : Store) :
    ∃ name?, (store.noteAll (scanned (tokensOf line))).Touched name? (read line store).2 ∧
      ∀ name, name? = some name →
        legality (tokensOf line) = .ok () ∧ Statement.target? (scanned (tokensOf line)) = some name := by
  rw [read_eq]
  split
  next => exact ⟨none, .unchanged, nofun⟩
  next hlegal =>
    refine ⟨_, dispatch_touched _ _, fun name hname => ⟨hlegal, ?_⟩⟩
    rwa [target?_scanned hlegal]

end Session

/-! ## Sessions that lines lead to -/

/-- what every line keeps: no name stands twice, and a value that may not be read is 0 -/
structure Store.Kept (s : Store) : Prop where
  distinct : s.names.Nodup
  hidden : ∀ name, (s.content name).2 = false → (s.content name).1 = 0

theorem Store.Kept.noteAll {s : Store} (h : s.Kept) (ts : List Token) : (s.noteAll ts).Kept where
  distinct := s.nodup_noteAll ts h.distinct
  hidden name hname := by
    rw [content_noteAll] at hname ⊢
    exact h.hidden name hname

theorem Store.Kept.touched {name? : Option String} {s t : Store} (h : s.Kept) (ht : s.Touched name? t) : t.Kept := by
  cases ht with
  | unchanged => exact h
  | @changed name f _ hf _ hassigned =>
    refine ⟨nodup_change name hf h.distinct, fun other hother => ?_⟩
    by_cases hne : other = name
    · subst hne
      simp [content, find?_change_self s other f hf, hassigned] at hother
    · simp only [content, find?_change_of_ne s f hf hne] at hother ⊢
      exact h.hidden other hother

namespace Session

/-- the session that some lines lead to -/
def after (limit : Nat) (history : List String) : Session :=
  history.foldl (fun s line => (s.evaluate line).2) (start limit)

theorem kept_evaluate {s : Session} (h : s.store.Kept) (line : String) : (s.evaluate line).2.store.Kept := by
  rcases Nat.lt_or_ge line.utf8ByteSize s.limit with hshort | hlong
  · obtain ⟨name?, htouched, -⟩ := read_touched line s.store
    rw [evaluate_of_short hshort]
    exact (h.noteAll _).touched htouched
  · rwa [evaluate_of_long hlong]

theorem after_append (limit : Nat) (history : List String) (line : String) :
    after limit (history ++ [line]) = ((after limit history).evaluate line).2 := by
  rw [after, List.foldl_append]
  rfl

/-- what holds of a session that has seen no line and is kept by every line holds of all sessions -/
theorem after_induction (P : Session → Prop) {limit : Nat} (h : P (start limit))
    (hstep : ∀ (s : Session) (line : String), P s → P (s.evaluate line).2) (history : List String) :
    P (after limit history) := by
  induction history using List.reverseRecOn with
  | nil => exact h
  | append_singleton history line ih =>
    rw [after_append]
    exact hstep _ line ih

theorem kept_after (limit : Nat) (history : List String) : (after limit history).store.Kept := by
  have hempty : (start limit).store.Kept := ⟨List.nodup_nil, fun _ _ => rfl⟩
  exact after_induction (fun s => s.store.Kept) hempty (fun _ line h => kept_evaluate h line) history

theorem limit_evaluate (s : Session) (line : String) : (s.evaluate line).2.limit = s.limit := by
  unfold evaluate
  split <;> rfl

theorem limit_after (limit : Nat) (history : List String) : (after limit history).limit = limit :=
  after_induction (fun s => s.limit = limit) rfl (fun s line h => (s.limit_evaluate line).trans h) history

/-- **What a line leaves in the store**, whatever comes of it. A line that is too long leaves everything. Of any other,
let `ts` be the tokens in front of the first illegal one and of `eof`.
- The names from before stay in their order, those among `ts` come after them, and none stands twice.
- A name among `ts` is noted where it stands there last; any other name keeps the slot it has.
- Only the target of the line may get another value or become readable, and only if nothing on the line is illegal. -/
theorem evaluate_footprint (limit : Nat) (history : List String) (line : String) :
    let s := after limit history
    let store := (s.evaluate line).2.store
    let ts := scanned (tokensOf line)
    (limit ≤ line.utf8ByteSize → store = s.store) ∧
      (line.utf8ByteSize < limit →
        (s.store.names <+: store.names ∧ store.names.Nodup) ∧
        (∀ name, name ∈ store.names ↔ name ∈ s.store.names ∨ ∃ t ∈ ts, t.terminal = .identifier name) ∧
        (∀ name column, lastColumn? name ts = some column → (store.find? name).map Slot.column = some column) ∧
        (∀ name, lastColumn? name ts = none → store.find? name = s.store.find? name) ∧
        ∀ name, store.content name ≠ s.store.content name →
          (∀ t ∈ tokensOf line, ∀ c, t.terminal ≠ .illegal c) ∧ Statement.target? ts = some name) := by
  intro s store ts
  have hlimit : s.limit = limit := limit_after limit history
  refine ⟨fun hlong => ?_, fun hshort => ?_⟩
  · rw [← hlimit] at hlong
    simp only [store, evaluate_of_long hlong]
  · rw [← hlimit] at hshort
    obtain ⟨name?, htouched, htarget⟩ := read_touched line s.store
    have hstore : store = (read line s.store).2 := by simp only [store, evaluate_of_short hshort]
    rw [← hstore] at htouched
    have hmentioned : ∀ name, name? = some name → ∃ t ∈ ts, t.terminal = .identifier name :=
      fun name hname => Statement.exists_of_target? (htarget name hname).2
    have hnames := htouched.names_noteAll hmentioned
    refine ⟨⟨?_, ?_⟩, fun name => ?_, fun name column hlast => htouched.column_noteAll hlast,
      fun name hlast => htouched.find?_noteAll hmentioned hlast, fun name hcontent => ?_⟩
    · rw [hnames]
      exact s.store.names_prefix_noteAll ts
    · rw [hnames]
      exact s.store.nodup_noteAll ts (kept_after limit history).distinct
    · rw [hnames]
      exact s.store.mem_names_noteAll ts name
    · by_cases hname : name? = some name
      · obtain ⟨hlegal, hfirst⟩ := htarget name hname
        exact ⟨fun t ht c => legality_eq_ok hlegal c t ht, hfirst⟩
      · exact absurd (htouched.content_noteAll hname) hcontent

/-- `x = y $` after `x = 1`: nothing is assigned, but `y` is noted -/
theorem evaluate_footprint_illegal_line :
    let s := after defaultLimit ["x = 1"]
    let store := (s.evaluate "x = y $").2.store
    "x = y $".utf8ByteSize < defaultLimit ∧ store.content "x" = s.store.content "x" ∧ "y" ∈ store.names := by
  intro s store
  have hshort : "x = y $".utf8ByteSize < defaultLimit := by decide
  have hillegal : ⟨.illegal '$', 7⟩ ∈ tokensOf "x = y $" := by decide +kernel
  have hname : ⟨.identifier "y", 5⟩ ∈ scanned (tokensOf "x = y $") := by decide +kernel
  obtain ⟨-, hnames, -, -, hcontent⟩ := (evaluate_footprint defaultLimit ["x = 1"] "x = y $").2 hshort
  refine ⟨hshort, ?_, (hnames "y").2 (Or.inr ⟨_, hname, rfl⟩)⟩
  by_contra hchanged
  exact (hcontent "x" hchanged).1 _ hillegal '$' rfl

end Session

end LineCalc
