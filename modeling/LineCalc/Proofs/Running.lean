/-
What pieces of the parser's runs do, told from one place of a line to another.

A `Line` is a row of tokens with an `eof` behind it. `Runs l depth cursor s x post` says that from a place of the row,
with `depth` parentheses open and the store `s`, the piece `x` of a run comes to an end, be it a result or a diagnostic,
and that `post` is true of it. No token is looked for where there is none, and the rounds suffice.

What the parser notes in the meantime is a `Trace`: the cursor goes on by one at a time and never past the `eof`, tokens
are looked at up to there only, at most `maxNesting` parentheses are open, and a call ends at the depth at which it
began. Traces are put together as the pieces are, and what is to be known of a journal is proved by induction over them.

`Runs.bind` puts pieces together. Two kinds of `post` are used: a piece gives a result that is told beforehand
(`Gives`), or what a walk yields, with the cursor where the rest of the walk begins (`AsWalk`).
-/
import LineCalc.Proofs.Cursor
import LineCalc.Proofs.Recognition

namespace LineCalc

/-! ## Journals -/

namespace Event

/-- where the cursor is, if the event tells -/
def cursor? : Event → Option Nat
  | look _ cursor _ => some cursor
  | enter .. => none
  | leave .. => none

/-- nothing after `last` is looked at, and no more parentheses are open than may be -/
def Within (last : Nat) : Event → Prop
  | look index cursor depth => index ≤ last ∧ cursor ≤ last ∧ depth ≤ maxNesting
  | enter _ depth => depth ≤ maxNesting
  | leave _ depth => depth ≤ maxNesting

end Event

/-- every call that begins also ends, at the depth at which it began -/
inductive Balanced : List Event → Prop
  | nil : Balanced []
  | look {index cursor depth : Nat} {events : List Event} :
      Balanced events → Balanced (.look index cursor depth :: events)
  | call {phrase : Phrase} {depth : Nat} {inner events : List Event} :
      Balanced inner → Balanced events → Balanced (.enter phrase depth :: (inner ++ .leave phrase depth :: events))

theorem Balanced.append {events later : List Event} (h : Balanced events) (h' : Balanced later) :
    Balanced (events ++ later) := by
  induction h with
  | nil => exact h'
  | look _ ih => exact .look ih
  | call hinner _ _ ih =>
    rw [List.cons_append, List.append_assoc, List.cons_append]
    exact .call hinner ih

/-- the events of a piece of a run that begins at a cursor and a depth, and ends at a cursor and the same depth -/
inductive Trace (last : Nat) : (cursor depth : Nat) → List Event → (cursor' : Nat) → Prop
  | stay {cursor depth : Nat} : cursor ≤ last → depth ≤ maxNesting → Trace last cursor depth [] cursor
  | look {cursor depth index : Nat} :
      index ≤ last → cursor ≤ last → depth ≤ maxNesting → Trace last cursor depth [.look index cursor depth] cursor
  | move {cursor depth : Nat} : cursor < last → depth ≤ maxNesting → Trace last cursor depth [] (cursor + 1)
  | call {cursor depth cursor' : Nat} {events : List Event} (phrase : Phrase) :
      Trace last cursor depth events cursor' →
      Trace last cursor depth (.enter phrase depth :: (events ++ [.leave phrase depth])) cursor'
  | group {cursor depth cursor' : Nat} {events : List Event} :
      Trace last cursor (depth + 1) events cursor' → Trace last cursor depth events cursor'
  | append {cursor mid cursor' depth : Nat} {events later : List Event} :
      Trace last cursor depth events mid → Trace last mid depth later cursor' →
      Trace last cursor depth (events ++ later) cursor'

namespace Trace

variable {last cursor depth cursor' : Nat} {events : List Event}

theorem bounds (h : Trace last cursor depth events cursor') :
    cursor ≤ cursor' ∧ cursor' ≤ last ∧ depth ≤ maxNesting := by
  induction h with
  | stay hc hd => exact ⟨Nat.le_refl _, hc, hd⟩
  | look _ hc hd => exact ⟨Nat.le_refl _, hc, hd⟩
  | move hc hd => exact ⟨Nat.le_succ _, hc, hd⟩
  | call _ _ ih => exact ih
  | group _ ih => exact ⟨ih.1, ih.2.1, Nat.le_of_succ_le ih.2.2⟩
  | append _ _ ih ih' => exact ⟨Nat.le_trans ih.1 ih'.1, ih'.2.1, ih.2.2⟩

theorem within (h : Trace last cursor depth events cursor') : ∀ e ∈ events, e.Within last := by
  induction h with
  | stay => simp
  | look hi hc hd =>
    intro e he
    rw [List.mem_singleton.1 he]
    exact ⟨hi, hc, hd⟩
  | move => simp
  | call phrase hevents ih =>
    have hdepth := hevents.bounds.2.2
    intro e he
    rw [List.mem_cons, List.mem_append, List.mem_singleton] at he
    rcases he with rfl | he | rfl
    · exact hdepth
    · exact ih e he
    · exact hdepth
  | group _ ih => exact ih
  | append _ _ ih ih' =>
    intro e he
    rcases List.mem_append.1 he with he | he
    · exact ih e he
    · exact ih' e he

theorem balanced (h : Trace last cursor depth events cursor') : Balanced events := by
  induction h with
  | stay => exact .nil
  | look => exact .look .nil
  | move => exact .nil
  | call _ _ ih => exact .call ih .nil
  | group _ ih => exact ih
  | append _ _ ih ih' => exact ih.append ih'

theorem filterMap_call (phrase : Phrase) (depth : Nat) (events : List Event) :
    (Event.enter phrase depth :: (events ++ [Event.leave phrase depth])).filterMap Event.cursor? =
      events.filterMap Event.cursor? := by
  rw [List.filterMap_cons_none rfl, List.filterMap_append, List.filterMap_cons_none rfl, List.filterMap_nil,
    List.append_nil]

/-- the cursor lies between its first and its last place all the time -/
theorem cursor_mem (h : Trace last cursor depth events cursor') :
    ∀ k ∈ events.filterMap Event.cursor?, cursor ≤ k ∧ k ≤ cursor' := by
  induction h with
  | stay => simp
  | look => simp [Event.cursor?]
  | move => simp
  | call _ _ ih => rw [filterMap_call]; exact ih
  | group _ ih => exact ih
  | append hevents hlater ih ih' =>
    intro k hk
    rw [List.filterMap_append, List.mem_append] at hk
    rcases hk with hk | hk
    · exact ⟨(ih k hk).1, Nat.le_trans (ih k hk).2 hlater.bounds.1⟩
    · exact ⟨Nat.le_trans hevents.bounds.1 (ih' k hk).1, (ih' k hk).2⟩

/-- the cursor never goes back -/
theorem pairwise_cursor (h : Trace last cursor depth events cursor') :
    (events.filterMap Event.cursor?).Pairwise (· ≤ ·) := by
  induction h with
  | stay => exact .nil
  | look => simp [Event.cursor?]
  | move => exact .nil
  | call _ _ ih => rw [filterMap_call]; exact ih
  | group _ ih => exact ih
  | append hevents hlater ih ih' =>
    rw [List.filterMap_append, List.pairwise_append]
    refine ⟨ih, ih', fun k hk k' hk' => ?_⟩
    exact Nat.le_trans (hevents.cursor_mem k hk).2 (hlater.cursor_mem k' hk').1

end Trace

/-! ## Lines -/

/-- tokens up to an `eof`; `after` is what walks are given behind it -/
structure Line where
  row : List Token
  column : Nat
  after : List Token
  noEof : ∀ t ∈ row, t.terminal ≠ .eof

namespace Line

variable {l : Line} {cursor : Nat}

/-- what walks are given at a place of the row -/
def rest (l : Line) (cursor : Nat) : List Token :=
  l.row.drop cursor ++ ⟨.eof, l.column⟩ :: l.after

/-- the token at a place of the row, which has an `eof` behind it -/
def token (l : Line) (cursor : Nat) : Token :=
  current (l.rest cursor)

theorem current_rest : current (l.rest cursor) = l.token cursor := rfl

theorem rest_eq_cons (h : cursor < l.row.length) : l.rest cursor = l.token cursor :: l.rest (cursor + 1) := by
  have hrest : l.rest cursor = l.row[cursor] :: l.rest (cursor + 1) := by
    rw [rest, List.drop_eq_getElem_cons h]
    rfl
  rw [token, hrest]
  rfl

theorem token_of_lt (h : cursor < l.row.length) : l.token cursor = l.row[cursor] := by
  rw [token, rest, List.drop_eq_getElem_cons h]
  rfl

theorem token_length (l : Line) : l.token l.row.length = ⟨.eof, l.column⟩ := by
  rw [token, rest, List.drop_length]
  rfl

/-- where another token stands than `eof`, the row goes on -/
theorem lt_of_terminal {t : Terminal} (h : (l.token cursor).terminal = t) (ht : t ≠ .eof) : cursor < l.row.length := by
  refine Nat.lt_of_not_le fun hge => ht ?_
  rw [token, rest, List.drop_eq_nil_of_le hge] at h
  exact h.symm

theorem rest_of_terminal {t : Terminal} (h : (l.token cursor).terminal = t) (ht : t ≠ .eof) :
    l.rest cursor = ⟨t, (l.token cursor).column⟩ :: l.rest (cursor + 1) := by
  rw [rest_eq_cons (lt_of_terminal h ht), ← h]

theorem run_advance {t : Terminal} (h : (l.token cursor).terminal = t) (ht : t ≠ .eof) :
    Walk.advance.run (l.rest cursor) = .ok ((), l.rest (cursor + 1)) := by
  rw [rest_of_terminal h ht]
  rfl

/-- tokens that end with `eof` are a row up to the first one -/
theorem exists_of_getLast? {tokens : List Token} (h : tokens.getLast?.map Token.terminal = some .eof) :
    ∃ l : Line, l.rest 0 = tokens ∧ tokens.findIdx (fun t => t.terminal = .eof) = l.row.length := by
  obtain ⟨t, hlast, ht⟩ := Option.map_eq_some_iff.1 h
  have hsome : (tokens.find? fun t => t.terminal = .eof).isSome :=
    List.find?_isSome.2 ⟨t, List.mem_of_getLast? hlast, decide_eq_true ht⟩
  obtain ⟨first, hfirst⟩ := Option.isSome_iff_exists.1 hsome
  obtain ⟨heof, row, back, rfl, hrow⟩ := List.find?_eq_some_iff_append.1 hfirst
  have hnone : ∀ t ∈ row, t.terminal ≠ .eof := fun t ht => by simpa using hrow t ht
  have hindex : row.findIdx (fun t => t.terminal = .eof) = row.length :=
    List.findIdx_eq_length.2 fun t ht => decide_eq_false (hnone t ht)
  obtain ⟨terminal, column⟩ := first
  cases of_decide_eq_true heof
  refine ⟨⟨row, column, back, hnone⟩, rfl, ?_⟩
  rw [List.findIdx_append, hindex, if_neg (Nat.lt_irrefl _), List.findIdx_cons, decide_eq_true rfl]
  exact Nat.zero_add row.length

/-- the place is between the halves of an empty group -/
structure EmptyGroup (l : Line) (cursor : Nat) : Prop where
  ne_zero : cursor ≠ 0
  opens : (l.token (cursor - 1)).terminal = .symbol .openParen
  closes : (l.token cursor).terminal = .symbol .closeParen

/-- after another token than `(`, no empty group can be begun -/
theorem not_emptyGroup_succ {t : Terminal} (h : (l.token cursor).terminal = t) (ht : t ≠ .symbol .openParen) :
    ¬ l.EmptyGroup (cursor + 1) := by
  intro hgroup
  have hopens := hgroup.opens
  rw [Nat.add_sub_cancel, h] at hopens
  exact ht hopens

end Line

namespace Parser

/-! ## Pieces of runs -/

/-- the parser stands at a place of the row, or at its `eof` -/
structure At (l : Line) (depth cursor : Nat) (s : Store) (p : Parser) : Prop where
  tokens : ∃ back, p.tokens = l.row ++ ⟨.eof, l.column⟩ :: back
  depth_eq : p.depth = depth
  cursor_eq : p.cursor = cursor
  store_eq : p.store = s
  depth_le : depth ≤ maxNesting
  cursor_le : cursor ≤ l.row.length

/-- `q` is where a piece of a run that begins at `p` may end -/
structure Reaches (l : Line) (p q : Parser) : Prop where
  tokens : q.tokens = p.tokens
  depth : q.depth = p.depth
  trace : ∃ events, q.journal = p.journal ++ events ∧ Trace l.row.length p.cursor p.depth events q.cursor

variable {α β : Type} {l : Line} {depth cursor cursor' : Nat} {s s' : Store} {p q : Parser}

theorem At.getElem? (hp : At l depth cursor s p) {index : Nat} (h : index ≤ l.row.length) :
    p.tokens[index]? = some (l.token index) := by
  obtain ⟨back, htokens⟩ := hp.tokens
  rw [htokens]
  rcases Nat.lt_or_eq_of_le h with hlt | rfl
  · rw [List.getElem?_append_left hlt, List.getElem?_eq_getElem hlt, Line.token_of_lt hlt]
  · rw [List.getElem?_append_right (Nat.le_refl _), Nat.sub_self, Line.token_length]
    rfl

namespace Reaches

theorem refl (hp : At l depth cursor s p) : Reaches l p p := by
  refine ⟨rfl, rfl, [], (List.append_nil _).symm, .stay ?_ ?_⟩
  · rw [hp.cursor_eq]
    exact hp.cursor_le
  · rw [hp.depth_eq]
    exact hp.depth_le

theorem trans {r : Parser} (h : Reaches l p q) (h' : Reaches l q r) : Reaches l p r := by
  obtain ⟨events, hjournal, htrace⟩ := h.trace
  obtain ⟨later, hjournal', htrace'⟩ := h'.trace
  refine ⟨h'.tokens.trans h.tokens, h'.depth.trans h.depth, events ++ later, ?_, ?_⟩
  · rw [hjournal', hjournal, List.append_assoc]
  · rw [h.depth] at htrace'
    exact htrace.append htrace'

theorem cursor_le (h : Reaches l p q) : p.cursor ≤ q.cursor := by
  obtain ⟨events, -, htrace⟩ := h.trace
  exact htrace.bounds.1

/-- what goes on after a piece of a run begins on the row as well -/
theorem place (h : Reaches l p q) (hp : At l depth cursor s p) : At l depth q.cursor q.store q := by
  obtain ⟨events, -, htrace⟩ := h.trace
  obtain ⟨back, htokens⟩ := hp.tokens
  exact ⟨⟨back, h.tokens.trans htokens⟩, h.depth.trans hp.depth_eq, rfl, rfl, hp.depth_le, htrace.bounds.2.1⟩

theorem call (phrase : Phrase) (h : Reaches l (p.note (.enter phrase p.depth)) q) :
    Reaches l p (q.note (.leave phrase q.depth)) := by
  obtain ⟨events, hjournal, htrace⟩ := h.trace
  have hdepth : q.depth = p.depth := h.depth
  have hcall : Trace l.row.length p.cursor p.depth _ q.cursor := htrace.call phrase
  refine ⟨h.tokens, hdepth, _, ?_, hcall⟩
  simp [note, hjournal, hdepth]

theorem group (h : Reaches l { p with depth := p.depth + 1 } q) : Reaches l p { q with depth := q.depth - 1 } := by
  obtain ⟨events, hjournal, htrace⟩ := h.trace
  refine ⟨h.tokens, ?_, events, hjournal, htrace.group⟩
  rw [h.depth]
  exact Nat.add_sub_cancel _ 1

end Reaches

/-- what a piece of a run leaves when it ends: a result or a diagnostic, a cursor and a store -/
abbrev Post (α : Type) := Except Diagnostic α → (cursor : Nat) → Store → Prop

/-- a piece of a run from `p` came to an end, and `post` is true of it -/
structure Ends (l : Line) (p : Parser) (r : Except Halt α × Parser) (post : Post α) : Prop where
  reaches : Reaches l p r.2
  result : ∃ e, r.1 = e.mapError Halt.refused ∧ post e r.2.cursor r.2.store

/-- from a place, a piece of a run comes to an end that `post` is true of -/
def Runs (l : Line) (depth cursor : Nat) (s : Store) (x : Action α) (post : Post α) : Prop :=
  ∀ p, At l depth cursor s p → Ends l p (x p) post

/-- there is a result, and it is `a` -/
def Gives (a : α) (cursor : Nat) (s : Store) : Post α :=
  fun e cursor' s' => e = .ok a ∧ cursor' = cursor ∧ s' = s

/-- the result or the diagnostic is the one of a walk, with the cursor where the rest begins -/
def AsWalk (l : Line) (w : Except Diagnostic (α × List Token) × Store) : Post α :=
  fun e cursor s => w = (e.map fun a => (a, l.rest cursor), s)

namespace Runs

variable {x : Action α} {f : α → Action β} {a : α} {post : Post α} {post' : Post β}
  {w : Except Diagnostic (α × List Token)} {g : α × List Token → Except Diagnostic (β × List Token)}

/-- behind the `eof` nothing begins -/
theorem of_lt (h : l.row.length < cursor) : Runs l depth cursor s x post := by
  intro p hp
  exact absurd hp.cursor_le (Nat.not_le_of_lt h)

theorem ofExcept {e : Except Diagnostic α} (h : post e cursor s) : Runs l depth cursor s (Parser.ofExcept e) post := by
  intro p hp
  rw [← hp.cursor_eq, ← hp.store_eq] at h
  exact ⟨.refl hp, e, rfl, h⟩

theorem pure (h : post (.ok a) cursor s) : Runs l depth cursor s (Pure.pure a) post :=
  ofExcept h

theorem refuse {d : Diagnostic} (h : post (.error d) cursor s) : Runs l depth cursor s (Parser.refuse d) post :=
  ofExcept h

theorem changeStore (f : Store → Store) :
    Runs l depth cursor s (Parser.changeStore f) (Gives () cursor (f s)) := by
  intro p hp
  refine ⟨⟨rfl, rfl, (Reaches.refl hp).trace⟩, .ok (), rfl, rfl, hp.cursor_eq, ?_⟩
  rw [← hp.store_eq]
  rfl

theorem call (phrase : Phrase) (h : Runs l depth cursor s x post) :
    Runs l depth cursor s (Parser.call phrase x) post := by
  intro p hp
  obtain ⟨hreaches, hresult⟩ :=
    h (p.note (.enter phrase p.depth))
      ⟨hp.tokens, hp.depth_eq, hp.cursor_eq, hp.store_eq, hp.depth_le, hp.cursor_le⟩
  exact ⟨hreaches.call, hresult⟩

theorem inGroup (hdepth : depth < maxNesting) (h : Runs l (depth + 1) cursor s x post) :
    Runs l depth cursor s (Parser.inGroup x) post := by
  intro p hp
  obtain ⟨hreaches, hresult⟩ :=
    h { p with depth := p.depth + 1 }
      ⟨hp.tokens, congrArg Nat.succ hp.depth_eq, hp.cursor_eq, hp.store_eq, hdepth, hp.cursor_le⟩
  exact ⟨hreaches.group, hresult⟩

/-- a piece that is followed by another one, unless it is refused -/
theorem bind (h : Runs l depth cursor s x post)
    (hok : ∀ a cursor' s', cursor ≤ cursor' → post (.ok a) cursor' s' → Runs l depth cursor' s' (f a) post')
    (herror : ∀ d cursor' s', post (.error d) cursor' s' → post' (.error d) cursor' s') :
    Runs l depth cursor s (x >>= f) post' := by
  intro p hp
  obtain ⟨hreaches, e, he, hpost⟩ := h p hp
  cases e with
  | ok a =>
    have hcursor := hreaches.cursor_le
    rw [hp.cursor_eq] at hcursor
    obtain ⟨hreaches', hresult⟩ := hok a _ _ hcursor hpost (x p).2 (hreaches.place hp)
    rw [Action.bind_of_ok (Prod.ext he rfl)]
    exact ⟨hreaches.trans hreaches', hresult⟩
  | error d =>
    rw [Action.bind_of_error (Prod.ext he rfl)]
    exact ⟨hreaches, .error d, rfl, herror d _ _ hpost⟩

/-- a piece that cannot be refused -/
theorem step (h : Runs l depth cursor s x (Gives a cursor' s')) (hf : Runs l depth cursor' s' (f a) post') :
    Runs l depth cursor s (x >>= f) post' := by
  refine h.bind (fun a' c t _ hpost => ?_) (fun d c t hpost => nomatch hpost.1)
  obtain ⟨ha, rfl, rfl⟩ := hpost
  cases ha
  exact hf

/-- a piece that is refused, and then nothing more -/
theorem refused {d : Diagnostic} (h : Runs l depth cursor s x (AsWalk l (.error d, s'))) :
    Runs l depth cursor s (x >>= f) (AsWalk l (.error d, s')) := by
  refine h.bind (fun a c t _ hpost => nomatch hpost) (fun d' c t hpost => ?_)
  cases hpost
  rfl

/-- a result that needs no tokens, unless there is none -/
theorem lift {e : Except Diagnostic α} {g : α → Except Diagnostic (β × List Token)}
    (hf : ∀ a, Runs l depth cursor s (f a) (AsWalk l (g a, s))) :
    Runs l depth cursor s (Parser.ofExcept e >>= f) (AsWalk l (e.bind g, s)) := by
  cases e with
  | ok a => exact step (ofExcept ⟨rfl, rfl, rfl⟩) (hf a)
  | error d => exact refused (refuse rfl)

/-- a piece that a walk does as well, and then a piece that the walk after it does -/
theorem walk (h : Runs l depth cursor s x (AsWalk l (w, s')))
    (hf : ∀ a cursor', cursor ≤ cursor' →
      Runs l depth cursor' s' (f a) (AsWalk l (g (a, l.rest cursor'), s'))) :
    Runs l depth cursor s (x >>= f) (AsWalk l (w.bind g, s')) := by
  refine h.bind (fun a c t hc hpost => ?_) (fun d c t hpost => ?_)
  · cases hpost
    exact hf a c hc
  · cases hpost
    rfl

theorem asWalk (h : Runs l depth cursor s x (Gives a cursor' s')) (hw : w = .ok (a, l.rest cursor')) :
    Runs l depth cursor s x (AsWalk l (w, s')) := by
  intro p hp
  obtain ⟨hreaches, e, he, rfl, hcursor, hstore⟩ := h p hp
  refine ⟨hreaches, .ok a, he, ?_⟩
  rw [hcursor, hstore, hw]
  rfl

end Runs

/-! ## Tokens -/

theorem look_runs {index : Nat} (hindex : index ≤ l.row.length) :
    Runs l depth cursor s (look index) (Gives (l.token index) cursor s) := by
  intro p hp
  have hlook : look index p = (.ok (l.token index), p.note (.look index p.cursor p.depth)) := by
    rw [look, hp.getElem? hindex]
  have htrace : Trace l.row.length cursor depth [.look index cursor depth] cursor :=
    .look hindex hp.cursor_le hp.depth_le
  rw [← hp.cursor_eq, ← hp.depth_eq] at htrace
  rw [hlook]
  exact ⟨⟨rfl, rfl, _, rfl, htrace⟩, .ok _, rfl, rfl, hp.cursor_eq, hp.store_eq⟩

theorem peek_runs : Runs l depth cursor s peek (Gives (l.token cursor) cursor s) := by
  intro p hp
  rw [peek, hp.cursor_eq]
  exact look_runs hp.cursor_le p hp

theorem previous_runs : Runs l depth cursor s previous (Gives (l.token (cursor - 1)) cursor s) := by
  intro p hp
  rw [previous, hp.cursor_eq]
  exact look_runs (Nat.le_trans (Nat.sub_le cursor 1) hp.cursor_le) p hp

theorem check_runs (t : Terminal) :
    Runs l depth cursor s (check t) (Gives (decide ((l.token cursor).terminal = t)) cursor s) :=
  peek_runs.step (.pure ⟨rfl, rfl, rfl⟩)

theorem check_of_eq {t : Terminal} (h : (l.token cursor).terminal = t) :
    Runs l depth cursor s (check t) (Gives true cursor s) := by
  rw [← decide_eq_true h]
  exact check_runs t

theorem check_of_ne {t : Terminal} (h : (l.token cursor).terminal ≠ t) :
    Runs l depth cursor s (check t) (Gives false cursor s) := by
  rw [← decide_eq_false h]
  exact check_runs t

theorem move_runs (h : cursor < l.row.length) : Runs l depth cursor s move (Gives () (cursor + 1) s) := by
  intro p hp
  have htrace : Trace l.row.length cursor depth [] (cursor + 1) := .move h hp.depth_le
  rw [← hp.cursor_eq, ← hp.depth_eq] at htrace
  refine ⟨⟨rfl, rfl, [], (List.append_nil _).symm, htrace⟩, .ok (), rfl, rfl, ?_, hp.store_eq⟩
  exact congrArg Nat.succ hp.cursor_eq

/-- on the row, the next token is taken -/
theorem advance_runs {t : Terminal} (h : (l.token cursor).terminal = t) (ht : t ≠ .eof) :
    Runs l depth cursor s advance (Gives (l.token cursor) (cursor + 1) s) := by
  have hmore : (l.token cursor).terminal ≠ .eof := h ▸ ht
  refine (check_of_ne hmore).step ?_
  exact (move_runs (Line.lt_of_terminal h ht)).step previous_runs

theorem takeOperator_of_none (operators : List (Symbol × Operator))
    (h : ∀ o ∈ operators, (l.token cursor).terminal ≠ .symbol o.1) :
    Runs l depth cursor s (takeOperator operators) (Gives none cursor s) := by
  induction operators with
  | nil => exact .pure ⟨rfl, rfl, rfl⟩
  | cons o operators ih =>
    rw [List.forall_mem_cons] at h
    exact (check_of_ne h.1).step (ih h.2)

theorem takeOperator_of_mem {sym : Symbol} {op : Operator} (operators : List (Symbol × Operator))
    (hsym : (l.token cursor).terminal = .symbol sym) (hop : (sym, op) ∈ operators)
    (honly : ∀ op', (sym, op') ∈ operators → op' = op) :
    Runs l depth cursor s (takeOperator operators) (Gives (some (op, (l.token cursor).column)) (cursor + 1) s) := by
  induction operators with
  | nil => cases hop
  | cons o operators ih =>
    by_cases ho : sym = o.1
    · subst ho
      refine (check_of_eq hsym).step ((advance_runs hsym (by simp)).step (.pure ⟨?_, rfl, rfl⟩))
      rw [honly o.2 List.mem_cons_self]
    · have htail : (sym, op) ∈ operators := by
        rcases List.mem_cons.1 hop with rfl | htail
        · exact absurd rfl ho
        · exact htail
      refine (check_of_ne ?_).step (ih htail fun op' hop' => honly op' (List.mem_cons_of_mem o hop'))
      rw [hsym]
      exact fun h => ho (Terminal.symbol.inj h)

/-- no operator of the level stands next -/
theorem takeOperator_stays {level : Level} (h : level.operator? (l.token cursor).terminal = none) :
    Runs l depth cursor s (takeOperator level.operators) (Gives none cursor s) := by
  refine takeOperator_of_none _ fun o ho hsymbol => ?_
  rw [Level.operator?_eq_some_iff.2 ⟨o.1, hsymbol, ho⟩] at h
  cases h

theorem takeOperator_takes {level : Level} {op : Operator}
    (h : level.operator? (l.token cursor).terminal = some op) :
    Runs l depth cursor s (takeOperator level.operators)
      (Gives (some (op, (l.token cursor).column)) (cursor + 1) s) := by
  obtain ⟨sym, hsym, hop⟩ := Level.operator?_eq_some_iff.1 h
  refine takeOperator_of_mem _ hsym hop fun op' hop' => ?_
  rw [Level.operator?_eq_some_iff.2 ⟨sym, hsym, hop'⟩] at h
  exact Option.some.inj h

end Parser

end LineCalc
