/-
What scanning does: a line falls into tokens that lie inside it, and the names among them are noted in the store.

`scanned` are the tokens in front of the first illegal one and of `eof`. Scanning declares the names among them and
nothing else (`scan_eq`), so that afterwards a slot tells where its name stood last on the line (`find?_noteAll`), names
are only added, at the end (`names_prefix_noteAll`, `mem_names_noteAll`), and what is known of their values stays as it
was (`content_noteAll`).

`evaluate_of_short` and `read_eq` open the evaluation of a line: its outcome and its store are those of `dispatch` on
the noted store, unless something on the line is illegal. `Session.Refused` tells how far a line came that is refused,
with the store it leaves.
-/
import Mathlib.Data.List.Induction
import LineCalc.Session

namespace LineCalc

/-! ## The tokens of a line -/

theorem Lexeme.terminal_read_ne_eof (c : Char) (cs : List Char) : (read c cs).1.terminal ≠ .eof := by
  unfold read
  split
  · simp
  · split
    · simp only [ofWord]
      split <;> simp
    · split <;> simp

/-- the tokens of a text stand inside it, but for an `eof` right after it -/
theorem tokensFrom_eq_append (column : Nat) (cs : List Char) :
    ∃ ts, tokensFrom column cs = ts ++ [⟨.eof, column + cs.length⟩] ∧
      ∀ t ∈ ts, t.terminal ≠ .eof ∧ column ≤ t.column ∧ t.column < column + cs.length := by
  fun_induction tokensFrom column cs with
  | case1 column => exact ⟨[], by simp, by simp⟩
  | case2 column cs ih =>
    obtain ⟨ts, heq, hts⟩ := ih
    refine ⟨ts, by rw [heq, List.length_cons, Nat.add_assoc, Nat.add_comm 1], fun t ht => ?_⟩
    have := hts t ht
    rw [List.length_cons]
    exact ⟨this.1, by omega, by omega⟩
  | case3 column c cs hc r ih =>
    obtain ⟨ts, heq, hts⟩ := ih
    have hlength : (c :: cs).length = r.1.text.length + r.2.length := by
      rw [← Lexeme.read_append c cs, List.length_append]
    have hpos := List.length_pos_iff.2 (Lexeme.text_read_ne_nil c cs)
    refine ⟨⟨r.1.terminal, column⟩ :: ts, by rw [heq, hlength, Nat.add_assoc]; rfl, fun t ht => ?_⟩
    rw [hlength]
    rcases List.mem_cons.1 ht with rfl | ht
    · exact ⟨Lexeme.terminal_read_ne_eof c cs, Nat.le_refl _, by simp only [r]; omega⟩
    · have := hts t ht
      exact ⟨this.1, by omega, by omega⟩

theorem column_of_mem_tokensFrom {column : Nat} {cs : List Char} {t : Token} (h : t ∈ tokensFrom column cs) :
    column ≤ t.column := by
  obtain ⟨ts, heq, hts⟩ := tokensFrom_eq_append column cs
  rw [heq, List.mem_append, List.mem_singleton] at h
  rcases h with h | rfl
  · exact (hts t h).2.1
  · exact Nat.le_add_right column cs.length

/-- the tokens of a line stand at its characters, but for an `eof` one column past the last -/
theorem tokensOf_eq_append (line : String) :
    ∃ ts, tokensOf line = ts ++ [⟨.eof, line.length + 1⟩] ∧
      ∀ t ∈ ts, t.terminal ≠ .eof ∧ 1 ≤ t.column ∧ t.column ≤ line.length := by
  obtain ⟨ts, heq, hts⟩ := tokensFrom_eq_append 1 line.toList
  rw [String.length_toList] at heq hts
  refine ⟨ts, by rw [tokensOf, heq, Nat.add_comm], fun t ht => ?_⟩
  have := hts t ht
  exact ⟨this.1, this.2.1, by omega⟩

/-- tokens stand one after another -/
theorem tokensFrom_pairwise (column : Nat) (cs : List Char) :
    (tokensFrom column cs).Pairwise fun t u => t.column < u.column := by
  fun_induction tokensFrom column cs with
  | case1 column => exact List.pairwise_singleton _ _
  | case2 column cs ih => exact ih
  | case3 column c cs hc r ih =>
    refine List.pairwise_cons.2 ⟨fun t ht => ?_, ih⟩
    have hpos := List.length_pos_iff.2 (Lexeme.text_read_ne_nil c cs)
    have hlow := column_of_mem_tokensFrom ht
    simp only [r] at hlow ⊢
    omega

/-- a column tells a token and what stands before and after it -/
theorem eq_of_column_eq {tokens us vs us' vs' : List Token} {t t' : Token}
    (hcolumns : tokens.Pairwise fun t u => t.column < u.column) (h : tokens = us ++ t :: vs)
    (h' : tokens = us' ++ t' :: vs') (hcolumn : t.column = t'.column) : us = us' ∧ t = t' ∧ vs = vs' := by
  subst h
  rcases List.append_eq_append_iff.1 h' with ⟨ws, rfl, hws⟩ | ⟨ws, rfl, hws⟩
  · cases ws with
    | nil => cases hws; exact ⟨(List.append_nil us).symm, rfl, rfl⟩
    | cons w ws =>
      cases hws
      have hlt := (List.pairwise_cons.1 (List.pairwise_append.1 hcolumns).2.1).1 t' (by simp)
      omega
  · cases ws with
    | nil => cases hws; exact ⟨List.append_nil us', rfl, rfl⟩
    | cons w ws =>
      cases hws
      have hlt := (List.pairwise_append.1 hcolumns).2.2 t' (by simp) t List.mem_cons_self
      omega

theorem eof_mem_tokensOf (line : String) : ∃ t ∈ tokensOf line, t.terminal = .eof := by
  obtain ⟨ts, heq, -⟩ := tokensOf_eq_append line
  rw [heq]
  exact ⟨_, List.mem_append_right _ List.mem_cons_self, rfl⟩

theorem column_of_mem_tokensOf {line : String} {t : Token} (h : t ∈ tokensOf line) :
    1 ≤ t.column ∧ t.column ≤ line.length + 1 := by
  obtain ⟨ts, heq, hts⟩ := tokensOf_eq_append line
  rw [heq, List.mem_append, List.mem_singleton] at h
  rcases h with h | rfl
  · have := hts t h
    omega
  · exact ⟨by simp, Nat.le_refl _⟩

/-! ## Legal tokens -/

/-- neither an illegal character nor the end of a line -/
def Terminal.isOrdinary : Terminal → Bool
  | illegal _ => false
  | eof => false
  | _ => true

/-- the tokens in front of the first illegal one and of `eof` -/
def scanned (tokens : List Token) : List Token :=
  tokens.takeWhile fun t => t.terminal.isOrdinary

/-- the diagnostic of the first illegal character -/
def legality : List Token → Except Diagnostic Unit
  | [] => .ok ()
  | t :: tokens =>
    match t.terminal with
    | .illegal c => .error (.illegalChar c t.column)
    | _ => legality tokens

theorem legality_eq_ok {tokens : List Token} (h : legality tokens = .ok ()) (c : Char) :
    ∀ t ∈ tokens, t.terminal ≠ .illegal c := by
  induction tokens with
  | nil => simp
  | cons t tokens ih =>
    unfold legality at h
    split at h
    next => cases h
    next hlegal =>
      intro u hu
      rcases List.mem_cons.1 hu with rfl | hu
      · exact hlegal c
      · exact ih h u hu

theorem legality_eq_error {tokens : List Token} {d : Diagnostic} (h : legality tokens = .error d) :
    ∃ c column, ⟨.illegal c, column⟩ ∈ tokens ∧ d = .illegalChar c column := by
  induction tokens with
  | nil => cases h
  | cons t tokens ih =>
    unfold legality at h
    split at h
    next c hc =>
      cases h
      exact ⟨c, t.column, by rw [← hc]; exact List.mem_cons_self, rfl⟩
    next =>
      obtain ⟨c, column, hmem, hd⟩ := ih h
      exact ⟨c, column, List.mem_cons_of_mem _ hmem, hd⟩

theorem legality_eq_ok_iff {tokens : List Token} :
    legality tokens = .ok () ↔ ∀ t ∈ tokens, ∀ c, t.terminal ≠ .illegal c := by
  refine ⟨fun h t ht c => legality_eq_ok h c t ht, fun h => ?_⟩
  cases hlegal : legality tokens with
  | ok u => rfl
  | error d =>
    obtain ⟨c, column, hmem, -⟩ := legality_eq_error hlegal
    exact absurd rfl (h _ hmem c)

/-- a legal line is scanned up to its end -/
theorem scanned_of_legal {ts : List Token} {column : Nat} (hts : ∀ t ∈ ts, t.terminal ≠ .eof)
    (h : legality (ts ++ [⟨.eof, column⟩]) = .ok ()) : scanned (ts ++ [⟨.eof, column⟩]) = ts := by
  have hordinary : ∀ t ∈ ts, t.terminal.isOrdinary = true := by
    intro t ht
    have hillegal := fun c => legality_eq_ok h c t (List.mem_append_left _ ht)
    obtain ⟨terminal, column⟩ := t
    cases terminal with
    | illegal c => exact absurd rfl (hillegal c)
    | eof => exact absurd rfl (hts _ ht)
    | _ => rfl
  rw [scanned, List.takeWhile_append_of_pos hordinary]
  exact List.append_nil ts

/-! ## Names that are noted -/

namespace Store

theorem names_prefix_change (s : Store) (name : String) {f : Slot → Slot} (hf : ∀ slot, (f slot).name = slot.name) :
    s.names <+: (s.change name f).names := by
  rw [names_change s name f hf]
  split
  · exact List.prefix_refl _
  · exact List.prefix_append _ _

/-- a new name gets one slot, all others keep theirs -/
theorem nodup_change {s : Store} (name : String) {f : Slot → Slot} (hf : ∀ slot, (f slot).name = slot.name)
    (h : s.names.Nodup) : (s.change name f).names.Nodup := by
  rw [names_change s name f hf]
  split
  next => exact h
  next hnew =>
    refine List.nodup_append.2 ⟨h, List.pairwise_singleton _ name, fun other hother _ hname => ?_⟩
    rw [List.mem_singleton.1 hname]
    exact fun heq => hnew (heq ▸ hother)

/-- the store after one more token was scanned -/
def note (s : Store) (t : Token) : Store :=
  match t.terminal with
  | .identifier name => s.declare name t.column
  | _ => s

/-- the store after some tokens were scanned -/
def noteAll (s : Store) (ts : List Token) : Store :=
  ts.foldl note s

/-- what is known of a name apart from where it stands; a name that is not in the store has the value 0, hidden -/
def content (s : Store) (name : String) : Int64 × Bool :=
  let slot := (s.find? name).getD (Slot.fresh name)
  (slot.stored, slot.assigned)

end Store

/-- where `name` stands last among `ts` -/
def lastColumn? (name : String) (ts : List Token) : Option Nat :=
  (ts.reverse.find? fun t => t.terminal = .identifier name).map Token.column

theorem lastColumn?_append_singleton (name : String) (ts : List Token) (t : Token) :
    lastColumn? name (ts ++ [t]) = if t.terminal = .identifier name then some t.column else lastColumn? name ts := by
  simp only [lastColumn?, List.reverse_append, List.reverse_singleton, List.singleton_append, List.find?_cons]
  split <;> simp_all

theorem lastColumn?_eq_none_iff {name : String} {ts : List Token} :
    lastColumn? name ts = none ↔ ∀ t ∈ ts, t.terminal ≠ .identifier name := by
  simp [lastColumn?]

theorem mem_of_lastColumn? {name : String} {ts : List Token} {column : Nat} (h : lastColumn? name ts = some column) :
    ⟨.identifier name, column⟩ ∈ ts := by
  obtain ⟨⟨terminal, column⟩, hfind, rfl⟩ := Option.map_eq_some_iff.1 h
  have hterminal := List.find?_some hfind
  have hmem := List.mem_of_find?_eq_some hfind
  simp only [decide_eq_true_eq] at hterminal
  subst hterminal
  exact List.mem_reverse.1 hmem

namespace Store

variable (s : Store) (ts : List Token)

theorem noteAll_append_singleton (t : Token) : s.noteAll (ts ++ [t]) = (s.noteAll ts).note t := by
  simp [noteAll]

theorem noteAll_eof (column : Nat) : s.noteAll (ts ++ [⟨.eof, column⟩]) = s.noteAll ts :=
  s.noteAll_append_singleton ts _

theorem name_find?_getD (name : String) : ((s.find? name).getD (Slot.fresh name)).name = name := by
  cases h : s.find? name with
  | none => rfl
  | some slot => simpa using List.find?_some h

theorem note_cases (t : Token) : s.note t = s ∨ ∃ name, s.note t = s.declare name t.column := by
  unfold note
  split
  next name _ => exact Or.inr ⟨name, rfl⟩
  next => exact Or.inl rfl

theorem find?_note (t : Token) (name : String) :
    (s.note t).find? name =
      if t.terminal = .identifier name then some ⟨name, (s.content name).1, (s.content name).2, t.column⟩
      else s.find? name := by
  obtain ⟨terminal, column⟩ := t
  cases terminal with
  | identifier other =>
    by_cases h : name = other
    · subst h
      rw [if_pos rfl]
      show (s.declare name column).find? name = _
      rw [declare, find?_change_self s name _ (by intro; rfl), name_find?_getD]
      rfl
    · rw [if_neg (by simpa using Ne.symm h)]
      exact s.find?_change_of_ne _ (fun _ => rfl) h
  | _ => simp [note]

theorem content_note (t : Token) (name : String) : (s.note t).content name = s.content name := by
  rw [content, find?_note]
  split <;> rfl

theorem content_noteAll (name : String) : (s.noteAll ts).content name = s.content name := by
  induction ts using List.reverseRecOn with
  | nil => rfl
  | append_singleton ts t ih => rw [noteAll_append_singleton, content_note, ih]

/-- a name that was scanned has a slot, which tells where it stood last; the slots of other names stay as they are -/
theorem find?_noteAll (name : String) :
    (s.noteAll ts).find? name =
      match lastColumn? name ts with
      | some column => some ⟨name, (s.content name).1, (s.content name).2, column⟩
      | none => s.find? name := by
  induction ts using List.reverseRecOn with
  | nil => rfl
  | append_singleton ts t ih =>
    rw [noteAll_append_singleton, find?_note, lastColumn?_append_singleton, content_noteAll, ih]
    split <;> rfl

/-- a name that was noted and has no value is reported where it stands last -/
theorem lastColumn?_of_read {s : Store} {ts : List Token} {name : String} {column : Nat} {d : Diagnostic}
    (hmem : ⟨.identifier name, column⟩ ∈ ts) (h : (s.noteAll ts).read name column = .error d) :
    lastColumn? name ts = some d.column ∧ d.fault = .unassigned name := by
  cases hlast : lastColumn? name ts with
  | none => exact absurd rfl (lastColumn?_eq_none_iff.1 hlast _ hmem)
  | some last =>
    rw [read, find?_noteAll, hlast] at h
    dsimp only at h
    split at h
    next => cases h; exact ⟨rfl, rfl⟩
    next => cases h

/-- what holds of a store and is kept by every name that is declared holds after any tokens -/
theorem noteAll_induction (P : Store → Prop) {s : Store} (h : P s)
    (hdeclare : ∀ (t : Store) (name : String) (column : Nat), P t → P (t.declare name column)) (ts : List Token) :
    P (s.noteAll ts) := by
  induction ts using List.reverseRecOn with
  | nil => exact h
  | append_singleton ts t ih =>
    rw [noteAll_append_singleton]
    rcases (s.noteAll ts).note_cases t with hnote | ⟨name, hnote⟩ <;> rw [hnote]
    · exact ih
    · exact hdeclare _ name t.column ih

theorem names_prefix_noteAll : s.names <+: (s.noteAll ts).names := by
  refine noteAll_induction (fun t => s.names <+: t.names) (List.prefix_refl _) (fun t name column h => ?_) ts
  exact h.trans (names_prefix_change t name fun _ => rfl)

theorem nodup_noteAll (h : s.names.Nodup) : (s.noteAll ts).names.Nodup := by
  refine noteAll_induction (fun t => t.names.Nodup) h (fun t name column h => ?_) ts
  exact nodup_change name (fun _ => rfl) h

theorem mem_names_iff (name : String) : name ∈ s.names ↔ s.find? name ≠ none := by
  simp [names, find?]

theorem mem_names_noteAll (name : String) :
    name ∈ (s.noteAll ts).names ↔ name ∈ s.names ∨ ∃ t ∈ ts, t.terminal = .identifier name := by
  rw [mem_names_iff, mem_names_iff, find?_noteAll]
  cases h : lastColumn? name ts with
  | none =>
    have := lastColumn?_eq_none_iff.1 h
    simp_all
  | some column =>
    have := mem_of_lastColumn? h
    simp only [ne_eq, reduceCtorEq, not_false_eq_true, true_iff]
    exact Or.inr ⟨_, this, rfl⟩

end Store

/-! ## A line -/

namespace Session

/-- scanning declares the names in front of the first illegal token -/
theorem scan_eq {ts : List Token} (hts : ∀ t ∈ ts, t.terminal ≠ .eof) (column : Nat) (store : Store) :
    scan (ts ++ [⟨.eof, column⟩]) store =
      (legality (ts ++ [⟨.eof, column⟩]), store.noteAll (scanned (ts ++ [⟨.eof, column⟩]))) := by
  induction ts generalizing store with
  | nil => rfl
  | cons t ts ih =>
    obtain ⟨terminal, column⟩ := t
    have ih := ih fun t ht => hts t (List.mem_cons_of_mem _ ht)
    cases terminal with
    | eof => exact absurd rfl (hts _ List.mem_cons_self)
    | illegal c => rfl
    | identifier name => exact ih (store.declare name column)
    | number v => exact ih store
    | symbol s => exact ih store
    | keyword k => exact ih store

theorem scan_tokensOf (line : String) (store : Store) :
    scan (tokensOf line) store = (legality (tokensOf line), store.noteAll (scanned (tokensOf line))) := by
  obtain ⟨ts, heq, hts⟩ := tokensOf_eq_append line
  rw [heq]
  exact scan_eq (fun t ht => (hts t ht).1) _ store

theorem read_eq (line : String) (store : Store) :
    read line store =
      match legality (tokensOf line) with
      | .error d => (.error d, store.noteAll (scanned (tokensOf line)))
      | .ok () => dispatch (tokensOf line) (store.noteAll (scanned (tokensOf line))) := by
  simp only [read, scan_tokensOf]
  cases legality (tokensOf line) <;> rfl

/-- what is scanned of a legal line is all of it but the `eof` -/
theorem eq_scanned_append {line : String} (h : legality (tokensOf line) = .ok ()) :
    tokensOf line = scanned (tokensOf line) ++ [⟨.eof, line.length + 1⟩] := by
  obtain ⟨ts, htokens, hts⟩ := tokensOf_eq_append line
  rw [htokens] at h ⊢
  rw [scanned_of_legal (fun t ht => (hts t ht).1) h]

theorem noteAll_scanned {line : String} (h : legality (tokensOf line) = .ok ()) (store : Store) :
    store.noteAll (scanned (tokensOf line)) = store.noteAll (tokensOf line) := by
  conv_rhs => rw [eq_scanned_append h]
  rw [Store.noteAll_eof]

/-- a legal line that is refused is refused at its first tokens, or as a statement -/
theorem dispatch_eq_error {tokens : List Token} {store : Store} {d : Diagnostic}
    (h : (dispatch tokens store).1 = .error d) :
    ((d.fault = .unexpectedEnd ∨ d.fault = .trailingTokens) ∧ (dispatch tokens store).2 = store) ∨
      ((Statement.run tokens store).1 = .error d ∧ (dispatch tokens store).2 = (Statement.run tokens store).2) := by
  unfold dispatch at h ⊢
  dsimp only at h ⊢
  split at h
  next => cases h; exact Or.inl ⟨Or.inl rfl, rfl⟩
  next =>
    dsimp only at h
    split at h
    · cases h
    · cases h; exact Or.inl ⟨Or.inr rfl, rfl⟩
  next =>
    right
    dsimp only at h ⊢
    refine ⟨?_, rfl⟩
    cases hrun : (Statement.run tokens store).1 with
    | ok v => rw [hrun] at h; cases h
    | error raised => rw [hrun] at h; cases h; rfl

theorem evaluate_of_long {s : Session} {line : String} (h : s.limit ≤ line.utf8ByteSize) :
    s.evaluate line = (.error (.inputTooLong s.limit), s) :=
  if_pos h

theorem evaluate_of_short {s : Session} {line : String} (h : line.utf8ByteSize < s.limit) :
    s.evaluate line = ((read line s.store).1, { s with store := (read line s.store).2 }) :=
  if_neg (Nat.not_le.2 h)

/-- how far a line came that is refused, and the store it leaves -/
inductive Refused (s : Session) (line : String) : Diagnostic → Store → Prop
  | long : Refused s line (.inputTooLong s.limit) s.store
  | illegal {c : Char} {column : Nat} :
      ⟨.illegal c, column⟩ ∈ tokensOf line →
      Refused s line (.illegalChar c column) (s.store.noteAll (scanned (tokensOf line)))
  /-- nothing stands on the line, or something stands after `help` -/
  | brief {d : Diagnostic} :
      d.fault = .unexpectedEnd ∨ d.fault = .trailingTokens → Refused s line d (s.store.noteAll (tokensOf line))
  | statement {d : Diagnostic} :
      (Statement.run (tokensOf line) (s.store.noteAll (tokensOf line))).1 = .error d →
      Refused s line d (Statement.run (tokensOf line) (s.store.noteAll (tokensOf line))).2

theorem refused_of_evaluate {s : Session} {line : String} {d : Diagnostic} (h : (s.evaluate line).1 = .error d) :
    Refused s line d (s.evaluate line).2.store := by
  rcases Nat.lt_or_ge line.utf8ByteSize s.limit with hshort | hlong
  · rw [evaluate_of_short hshort, read_eq] at h ⊢
    cases hlegal : legality (tokensOf line) with
    | error raised =>
      rw [hlegal] at h
      cases h
      obtain ⟨c, column, hmem, rfl⟩ := legality_eq_error hlegal
      exact .illegal hmem
    | ok u =>
      rw [hlegal, noteAll_scanned hlegal] at h
      rw [noteAll_scanned hlegal]
      rcases dispatch_eq_error h with ⟨hfault, hstore⟩ | ⟨hrun, hstore⟩
      · rw [show _ = s.store.noteAll (tokensOf line) from hstore]
        exact .brief hfault
      · rw [show _ = (Statement.run (tokensOf line) (s.store.noteAll (tokensOf line))).2 from hstore]
        exact .statement hrun
  · rw [evaluate_of_long hlong] at h ⊢
    cases h
    exact .long

end Session

end LineCalc
