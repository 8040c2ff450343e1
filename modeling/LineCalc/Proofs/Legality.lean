/-
Which lines are legal, told from their characters alone.

A text has a flaw where a character stands that no token is made of, and where a row of equal characters does not come
out even: `<` and `>` are tokens in twos only, a `.` in threes (`quota`). `Flaw` says so of a text without reading it as
tokens. Characters in front of a text, as many as their quota asks for, move its flaws along and add none
(`flaw_quota_append`). Legal spellings are made of such rows (`Spelling.whole`), and what is no spelling begins with a
flaw (`flaw_of_leading?_eq_none`). So the first token that is illegal is the first flaw of its line, whatever stands
before it (`legality_tokensFrom`).

Result:
- `evaluate_flawed`: which lines are refused for an illegal character, for which one, and what they leave in the store.
-/
import LineCalc.Proofs.Pointing
import LineCalc.Proofs.Spelling

namespace LineCalc

/-! ## Flaws of a text -/

/-- the characters of symbols -/
def symbolChars : List Char := ['/', '%', '+', '-', '(', ')', '^', '&', '|', '=', '*', '<', '>', '.']

/-- the characters that tokens are made of, and the space -/
def isUsable (c : Char) : Bool := c = ' ' || c.isAlpha || c.isDigit || c ∈ symbolChars

/-- how many of a character make a token, where no other number of them does -/
def quota : Char → Nat
  | '<' => 2
  | '>' => 2
  | '.' => 3
  | _ => 1

/-- at place `start` of a text, counted from 0, begins a row of `n` times `c` that could not be longer -/
structure Row (cs : List Char) (c : Char) (start n : Nat) : Prop where
  holds : ∀ k, start ≤ k → k < start + n → cs[k]? = some c
  before : ∀ k, k + 1 = start → cs[k]? ≠ some c
  after : cs[start + n]? ≠ some c

/-- at place `i` of a text, counted from 0, stands a `c` that no token can take -/
inductive Flaw (cs : List Char) (c : Char) (i : Nat) : Prop
  /-- a character that no token is made of -/
  | stray : cs[i]? = some c → isUsable c = false → Flaw cs c i
  /-- the first character past the last full token in a row -/
  | surplus {start n : Nat} :
      Row cs c start n → n % quota c ≠ 0 → i = start + (n - n % quota c) → Flaw cs c i

/-- the leftmost flaw of a text -/
def FirstFlaw (cs : List Char) (c : Char) (i : Nat) : Prop :=
  Flaw cs c i ∧ ∀ d j, Flaw cs d j → i ≤ j

theorem quota_pos (c : Char) : 0 < quota c := by
  unfold quota
  split <;> decide

theorem Flaw.getElem? {cs : List Char} {c : Char} {i : Nat} (h : Flaw cs c i) : cs[i]? = some c := by
  rcases h with ⟨hc, -⟩ | @⟨start, n, hrow, hn, hi⟩
  · exact hc
  · have hle := Nat.mod_le n (quota c)
    exact hrow.holds i (by omega) (by omega)

theorem not_flaw_nil (c : Char) (i : Nat) : ¬ Flaw [] c i := by
  intro h
  cases h.getElem?

/-! ## Full rows have no flaws -/

section
variable {q : Nat} {a c : Char} {rest : List Char}

theorem getElem?_row_append (q : Nat) (a : Char) (rest : List Char) (k : Nat) :
    (List.replicate q a ++ rest)[k]? = if k < q then some a else rest[k - q]? := by
  rw [List.getElem?_append, List.length_replicate]
  split
  next hk => rw [List.getElem?_replicate_of_lt hk]
  next => rfl

/-- a row in a text with `q` times `a` at its front is one of the rest, or goes on with them -/
theorem Row.of_append (hq : 0 < q) {start n : Nat} (hn : 0 < n) (h : Row (List.replicate q a ++ rest) c start n) :
    (∃ s, start = q + s ∧ Row rest c s n) ∨ (c = a ∧ start = 0 ∧ q ≤ n ∧ Row rest c 0 (n - q)) := by
  obtain ⟨hholds, hbefore, hafter⟩ := h
  simp only [getElem?_row_append] at hholds hbefore hafter
  rcases Nat.lt_or_ge start q with hlt | hge
  · right
    have hca : c = a := by
      have hfirst := hholds start le_rfl (by omega)
      rw [if_pos hlt] at hfirst
      exact (Option.some.inj hfirst).symm
    have hstart : start = 0 := by
      by_contra hne
      have hprevious := hbefore (start - 1) (by omega)
      rw [if_pos (by omega), hca] at hprevious
      exact hprevious rfl
    subst hca hstart
    have hle : q ≤ n := by
      by_contra hgt
      rw [if_pos (by omega)] at hafter
      exact hafter rfl
    refine ⟨rfl, rfl, hle, fun k _ hk => ?_, nofun, ?_⟩
    · have hhere := hholds (q + k) (by omega) (by omega)
      rwa [if_neg (by omega), Nat.add_sub_cancel_left] at hhere
    · rw [if_neg (by omega)] at hafter
      rwa [Nat.zero_add] at hafter ⊢
  · left
    obtain ⟨s, rfl⟩ := Nat.exists_eq_add_of_le hge
    refine ⟨s, rfl, fun k hk hk' => ?_, fun k hk => ?_, ?_⟩
    · have hhere := hholds (q + k) (by omega) (by omega)
      rwa [if_neg (by omega), Nat.add_sub_cancel_left] at hhere
    · have hprevious := hbefore (q + k) (by omega)
      rwa [if_neg (by omega), Nat.add_sub_cancel_left] at hprevious
    · rwa [if_neg (by omega), Nat.add_assoc, Nat.add_sub_cancel_left] at hafter

/-- a row at the front goes on with the same characters in front of it -/
theorem Row.grow {n : Nat} (h : Row rest a 0 n) : Row (List.replicate q a ++ rest) a 0 (q + n) := by
  refine ⟨fun k _ hk => ?_, nofun, ?_⟩
  · rw [getElem?_row_append]
    split
    next => rfl
    next hge => exact h.holds (k - q) (Nat.zero_le _) (by omega)
  · have hafter := h.after
    rwa [getElem?_row_append, if_neg (by omega), Nat.zero_add, Nat.add_sub_cancel_left, ← Nat.zero_add n]

/-- a row that does not go on with the characters in front of a text is moved along by them -/
theorem Row.shift {start n : Nat} (h : Row rest c start n) (hapart : start = 0 → c ≠ a) :
    Row (List.replicate q a ++ rest) c (q + start) n := by
  refine ⟨fun k hk hk' => ?_, fun k hk => ?_, ?_⟩
  · rw [getElem?_row_append, if_neg (by omega)]
    exact h.holds (k - q) (by omega) (by omega)
  · rw [getElem?_row_append]
    split
    next hlt =>
      intro heq
      exact hapart (by omega) (Option.some.inj heq).symm
    next hge => exact h.before (k - q) (by omega)
  · have hafter := h.after
    rwa [getElem?_row_append, if_neg (by omega), Nat.add_assoc, Nat.add_sub_cancel_left]

/-- **Characters that come out even have no flaw**, and leave those of the text behind them. -/
theorem flaw_quota_append (ha : isUsable a) (rest : List Char) (c : Char) (i : Nat) :
    Flaw (List.replicate (quota a) a ++ rest) c i ↔ ∃ j, i = quota a + j ∧ Flaw rest c j := by
  constructor
  · rintro (⟨hc, hstray⟩ | @⟨start, n, hrow, hn, hi⟩)
    · rw [getElem?_row_append] at hc
      split at hc
      next =>
        rw [← Option.some.inj hc, ha] at hstray
        cases hstray
      next hge => exact ⟨i - quota a, by omega, .stray hc hstray⟩
    · have hpos : 0 < n := Nat.pos_of_ne_zero fun hzero => hn (by rw [hzero, Nat.zero_mod])
      rcases hrow.of_append (quota_pos a) hpos with ⟨s, rfl, hrest⟩ | ⟨rfl, rfl, hle, hrest⟩
      · exact ⟨s + (n - n % quota c), by omega, .surplus hrest hn rfl⟩
      · have hmod : (n - quota c) % quota c = n % quota c := (Nat.mod_eq_sub_mod hle).symm
        have hle' := Nat.mod_le (n - quota c) (quota c)
        refine ⟨n - quota c - n % quota c, by omega, .surplus hrest (by rwa [hmod]) (by omega)⟩
  · rintro ⟨j, rfl, ⟨hc, hstray⟩ | @⟨start, n, hrow, hn, hj⟩⟩
    · refine .stray ?_ hstray
      rwa [getElem?_row_append, if_neg (by omega), Nat.add_sub_cancel_left]
    · by_cases hjoin : start = 0 ∧ c = a
      · obtain ⟨rfl, rfl⟩ := hjoin
        have hmod : (quota c + n) % quota c = n % quota c := Nat.add_mod_left _ _
        have hle := Nat.mod_le n (quota c)
        exact .surplus hrow.grow (by rwa [hmod]) (by omega)
      · exact .surplus (hrow.shift fun hstart hca => hjoin ⟨hstart, hca⟩) hn (by omega)

/-- rows that come out even, one after another -/
inductive Whole : List Char → Prop
  | nil : Whole []
  | row {a : Char} {cs : List Char} : isUsable a → Whole cs → Whole (List.replicate (quota a) a ++ cs)

theorem Whole.flaw_append {text : List Char} (h : Whole text) (rest : List Char) (c : Char) (i : Nat) :
    Flaw (text ++ rest) c i ↔ ∃ j, i = text.length + j ∧ Flaw rest c j := by
  induction h generalizing i with
  | nil => simp
  | @row a cs ha _ ih =>
    rw [List.append_assoc, flaw_quota_append ha]
    simp only [ih, List.length_append, List.length_replicate]
    constructor
    · rintro ⟨_, rfl, j, rfl, hj⟩
      exact ⟨j, (Nat.add_assoc _ _ _).symm, hj⟩
    · rintro ⟨j, rfl, hj⟩
      exact ⟨cs.length + j, Nat.add_assoc _ _ _, j, rfl, hj⟩

end

/-! ## Spellings have no flaws -/

/-- a character that is a row by itself -/
def isSingle (c : Char) : Bool := isUsable c && quota c = 1

theorem whole_of_all {cs : List Char} (h : cs.all isSingle) : Whole cs := by
  induction cs with
  | nil => exact .nil
  | cons c cs ih =>
    simp only [List.all_cons, isSingle, Bool.and_eq_true, decide_eq_true_eq] at h
    obtain ⟨⟨husable, hone⟩, hcs⟩ := h
    have hrow := Whole.row husable (ih hcs)
    rwa [hone] at hrow

theorem Symbol.whole (s : Symbol) : Whole s.chars := by
  cases s with
  | ellipsis => exact .row (a := '.') rfl .nil
  | lessLess => exact .row (a := '<') rfl .nil
  | greaterGreater => exact .row (a := '>') rfl .nil
  | _ => exact whole_of_all (by decide)

theorem isSingle_of_isAlphanum {c : Char} (h : c.isAlpha ∨ c.isDigit) : isSingle c := by
  have husable : isUsable c := by
    rcases h with halpha | hdigit
    · simp [isUsable, halpha]
    · simp [isUsable, hdigit]
  have hquota : quota c = 1 := by
    unfold quota
    split
    next => exact absurd h (by decide)
    next => exact absurd h (by decide)
    next => exact absurd h (by decide)
    next => rfl
  rw [isSingle, husable, hquota]
  rfl

theorem whole_of_isAlphanum {cs : List Char} (h : ∀ c ∈ cs, c.isAlpha ∨ c.isDigit) : Whole cs :=
  whole_of_all (List.all_eq_true.2 fun c hc => isSingle_of_isAlphanum (h c hc))

theorem Radix.isAlphanum_of_isSome {c : Char} (h : (digitOfChar? c).isSome) : c.isAlpha ∨ c.isDigit := by
  have hf : 'f' ≤ 'z' := by decide
  have hF : 'F' ≤ 'Z' := by decide
  unfold digitOfChar? at h
  split_ifs at h with hdigit hlower hupper
  · right
    exact Bool.and_eq_true_iff.2 ⟨decide_eq_true hdigit.1, decide_eq_true hdigit.2⟩
  · left
    have hletter : c.isLower = true :=
      Bool.and_eq_true_iff.2 ⟨decide_eq_true hlower.1, decide_eq_true (Char.le_trans hlower.2 hf)⟩
    exact Bool.or_eq_true_iff.2 (Or.inr hletter)
  · left
    have hletter : c.isUpper = true := decide_eq_true ⟨hupper.1, Char.le_trans hupper.2 hF⟩
    exact Bool.or_eq_true_iff.2 (Or.inl hletter)
  · cases h

theorem Radix.isAlpha_of_mark {r : Radix} {m : Char} (h : ofMark? m = some r) : m.isAlpha := by
  unfold ofMark? at h
  split at h
  · rfl
  · rfl
  · rfl
  · cases h

/-- a literal is a row of letters and digits -/
theorem Literal.isAlphanum_text {l : Literal} (h : l.IsLegal) : ∀ c ∈ l.text, c.isAlpha ∨ c.isDigit := by
  intro c hc
  rcases List.mem_append.1 hc with hmark | hdigit
  · rcases h.mark with ⟨-, hnil, -⟩ | ⟨m, hm, hradix⟩
    · rw [hnil] at hmark
      cases hmark
    · rw [hm] at hmark
      rcases List.mem_cons.1 hmark with rfl | hletter
      · exact Or.inr rfl
      · rw [List.mem_singleton.1 hletter]
        exact Or.inl (Radix.isAlpha_of_mark hradix)
  · have hrun := h.runsOver c hdigit
    cases hradix : l.radix with
    | hexadecimal =>
      rw [hradix] at hrun
      exact Radix.isAlphanum_of_isSome hrun
    | _ =>
      rw [hradix] at hrun
      exact Or.inr hrun

theorem Spelling.whole {sp : Spelling} (h : sp.IsLegal) : Whole sp.text := by
  cases sp with
  | symbol s => exact s.whole
  | keyword k => exact whole_of_isAlphanum fun c hc => Or.inl (k.isAlpha_text c hc)
  | name letters => exact whole_of_isAlphanum fun c hc => Or.inl (h.2.2.1 c hc)
  | literal l => exact whole_of_isAlphanum (Literal.isAlphanum_text h)

/-! ## What is no spelling begins with a flaw -/

/-- a text begins with a row of any character, which may be empty -/
theorem exists_row (cs : List Char) (c : Char) :
    ∃ n rest, cs = List.replicate n c ++ rest ∧ Row cs c 0 n := by
  induction cs with
  | nil => exact ⟨0, [], rfl, nofun, nofun, nofun⟩
  | cons d cs ih =>
    by_cases hd : d = c
    · subst hd
      obtain ⟨n, rest, hcs, hrow⟩ := ih
      have hgrown : Row (List.replicate 1 d ++ cs) d 0 (1 + n) := hrow.grow
      refine ⟨1 + n, rest, ?_, hgrown⟩
      rw [hcs, Nat.add_comm, List.replicate_succ, List.cons_append]
    · refine ⟨0, d :: cs, rfl, nofun, nofun, ?_⟩
      exact fun hfirst => hd (Option.some.inj hfirst)

/-- a usable character that is no letter and no digit makes a symbol, as often as its quota says -/
theorem exists_symbol {c : Char} (husable : isUsable c) (hspace : c ≠ ' ') (hdigit : c.isDigit = false)
    (halpha : c.isAlpha = false) : ∃ s : Symbol, s.chars = List.replicate (quota c) c := by
  have hlisted : symbolChars.all fun d => Symbol.all.any fun s => s.chars = List.replicate (quota d) d := by decide
  simp only [isUsable, hspace, hdigit, halpha, decide_false, Bool.false_or, decide_eq_true_eq] at husable
  obtain ⟨s, -, hs⟩ := List.any_eq_true.1 (List.all_eq_true.1 hlisted c husable)
  exact ⟨s, of_decide_eq_true hs⟩

theorem flaw_of_leading?_eq_none {c : Char} {cs : List Char} (h : Symbol.leading? (c :: cs) = none) (hspace : c ≠ ' ')
    (hdigit : c.isDigit = false) (halpha : c.isAlpha = false) : Flaw (c :: cs) c 0 := by
  cases husable : isUsable c with
  | false => exact .stray rfl husable
  | true =>
    obtain ⟨s, hs⟩ := exists_symbol husable hspace hdigit halpha
    obtain ⟨n, rest, hcs, hrow⟩ := exists_row (c :: cs) c
    have hpos : n ≠ 0 := by
      rintro rfl
      exact hrow.after rfl
    -- a row as long as the quota would have been read as the symbol
    have hlt : n < quota c := by
      by_contra hge
      have hsplit : n = quota c + (n - quota c) := by omega
      have hprefix : s.chars <+: c :: cs := by
        rw [hcs, hs, hsplit, ← List.replicate_append_replicate, List.append_assoc]
        exact List.prefix_append _ _
      exact Symbol.leading?_eq_none_iff.1 h s hprefix
    have hmod := Nat.mod_eq_of_lt hlt
    exact .surplus hrow (by rwa [hmod]) (by omega)

/-! ## The first illegal token is the first flaw -/

/-- a verdict on a text whose first character stands at `column` tells of its flaws: of the leftmost, or of none -/
def Tells (column : Nat) (cs : List Char) : Except Diagnostic Unit → Prop
  | .ok () => ∀ c i, ¬ Flaw cs c i
  | .error d => ∃ c i, FirstFlaw cs c i ∧ d = .illegalChar c (column + i)

/-- what comes out even in front of a text changes nothing but the columns -/
theorem Whole.tells {column : Nat} {text rest : List Char} (h : Whole text) {verdict : Except Diagnostic Unit}
    (hrest : Tells (column + text.length) rest verdict) : Tells column (text ++ rest) verdict := by
  cases verdict with
  | ok u =>
    intro c i hflaw
    obtain ⟨j, -, hj⟩ := (h.flaw_append rest c i).1 hflaw
    exact hrest c j hj
  | error d =>
    obtain ⟨c, i, ⟨hflaw, hfirst⟩, rfl⟩ := hrest
    refine ⟨c, text.length + i, ⟨(h.flaw_append rest c _).2 ⟨i, rfl, hflaw⟩, ?_⟩, by rw [Nat.add_assoc]⟩
    intro d j hd
    obtain ⟨k, rfl, hk⟩ := (h.flaw_append rest d j).1 hd
    exact Nat.add_le_add_left (hfirst d k hk) _

theorem legality_spelling (sp : Spelling) (column : Nat) (tokens : List Token) :
    legality (⟨sp.terminal, column⟩ :: tokens) = legality tokens := by
  cases sp <;> rfl

/-- **The first illegal token of a text is its first flaw**, and a text without flaws has none. -/
theorem legality_tokensFrom (column : Nat) (cs : List Char) : Tells column cs (legality (tokensFrom column cs)) := by
  fun_induction tokensFrom column cs with
  | case1 column => exact not_flaw_nil
  | case2 column cs ih =>
    have hspace : Whole [' '] := .row (a := ' ') rfl .nil
    exact hspace.tells ih
  | case3 column c cs hc r ih =>
    rcases Lexeme.spelling_of_read c cs with ⟨sp, hlegal, -, hlexeme⟩ | ⟨hsymbol, hdigit, halpha⟩
    · have happend := Lexeme.read_append c cs
      simp only [r, hlexeme] at ih happend ⊢
      rw [legality_spelling, ← happend]
      exact (Spelling.whole hlegal).tells ih
    · have hillegal : r.1.terminal = .illegal c := by
        simp only [r, Lexeme.read, hdigit, halpha, hsymbol]
        rfl
      rw [hillegal]
      exact ⟨c, 0, ⟨flaw_of_leading?_eq_none hsymbol hc hdigit halpha, fun _ _ _ => Nat.zero_le _⟩, rfl⟩

/-- what is scanned of a line stands to the left of its first illegal token, and is all that stands there -/
theorem scanned_eq_filter {ts : List Token} {last : Token} {d : Diagnostic} (hts : ∀ t ∈ ts, t.terminal ≠ .eof)
    (hlast : legality [last] = .ok ()) (hcolumns : (ts ++ [last]).Pairwise fun t u => t.column < u.column)
    (h : legality (ts ++ [last]) = .error d) :
    scanned (ts ++ [last]) = (ts ++ [last]).filter fun t => t.column < d.column := by
  induction ts with
  | nil =>
    rw [List.nil_append, hlast] at h
    cases h
  | cons t ts ih =>
    rw [List.cons_append] at h hcolumns ⊢
    obtain ⟨hright, hrest⟩ := List.pairwise_cons.1 hcolumns
    unfold legality at h
    split at h
    next c hc =>
      cases h
      have hnone : ∀ u ∈ t :: (ts ++ [last]), ¬ u.column < t.column := by
        intro u hu
        rcases List.mem_cons.1 hu with rfl | hu
        · exact Nat.lt_irrefl _
        · exact Nat.lt_asymm (hright u hu)
      have hstop : t.terminal.isOrdinary = false := by rw [hc]; rfl
      rw [scanned, List.takeWhile_cons, hstop]
      refine (List.filter_eq_nil_iff.2 fun u hu hlt => ?_).symm
      exact hnone u hu (of_decide_eq_true hlt)
    next hlegal =>
      have hordinary : t.terminal.isOrdinary = true := by
        have hne := hts t List.mem_cons_self
        obtain ⟨terminal, c⟩ := t
        cases terminal with
        | illegal c => exact absurd rfl (hlegal c)
        | eof => exact absurd rfl hne
        | _ => rfl
      obtain ⟨c, k, hmem, rfl⟩ := legality_eq_error h
      have hleft : t.column < (Diagnostic.illegalChar c k).column := hright _ hmem
      have hrests := ih (fun u hu => hts u (List.mem_cons_of_mem t hu)) hrest h
      calc scanned (t :: (ts ++ [last]))
        _ = t :: scanned (ts ++ [last]) := by simp only [scanned, List.takeWhile_cons, hordinary, if_true]
        _ = (t :: (ts ++ [last])).filter _ := by rw [hrests, List.filter_cons, if_pos (decide_eq_true hleft)]

theorem scanned_tokensOf {line : String} {d : Diagnostic} (h : legality (tokensOf line) = .error d) :
    scanned (tokensOf line) = (tokensOf line).filter fun t => t.column < d.column := by
  obtain ⟨ts, htokens, hts⟩ := tokensOf_eq_append line
  have hcolumns : (tokensOf line).Pairwise fun t u => t.column < u.column := tokensFrom_pairwise 1 line.toList
  rw [htokens] at h hcolumns ⊢
  exact scanned_eq_filter (fun t ht => (hts t ht).1) rfl hcolumns h

/-! ## Lines -/

theorem tells_legality (line : String) : Tells 1 line.toList (legality (tokensOf line)) :=
  legality_tokensFrom 1 line.toList

theorem not_flaw_of_legality {line : String} (h : legality (tokensOf line) = .ok ()) (c : Char) (i : Nat) :
    ¬ Flaw line.toList c i := by
  have htells := tells_legality line
  rw [h] at htells
  exact htells c i

theorem firstFlaw_of_legality {line : String} {d : Diagnostic} (h : legality (tokensOf line) = .error d) :
    ∃ c i, FirstFlaw line.toList c i ∧ d = .illegalChar c (i + 1) := by
  have htells := tells_legality line
  rw [h] at htells
  obtain ⟨c, i, hfirst, rfl⟩ := htells
  exact ⟨c, i, hfirst, by rw [Nat.add_comm]⟩

namespace Session

/-- only the scanner refuses a line for an illegal character -/
theorem legality_of_evaluate {s : Session} {line : String} (hshort : line.utf8ByteSize < s.limit) {d : Diagnostic}
    {c : Char} (h : (s.evaluate line).1 = .error d) (hfault : d.fault = .illegalChar c) :
    legality (tokensOf line) = .error d := by
  rw [evaluate_of_short hshort] at h
  cases hlegal : legality (tokensOf line) with
  | ok u =>
    obtain ⟨t, ht, -, hconcerns⟩ := pointsInto_of_read h
    rw [hfault] at hconcerns
    exact absurd hconcerns (legality_eq_ok hlegal c t ht)
  | error raised =>
    rw [read_eq, hlegal] at h
    cases h
    rfl

theorem evaluate_of_legality {s : Session} {line : String} (hshort : line.utf8ByteSize < s.limit) {d : Diagnostic}
    (h : legality (tokensOf line) = .error d) :
    s.evaluate line = (.error d, { s with store := s.store.noteAll (scanned (tokensOf line)) }) := by
  rw [evaluate_of_short hshort, read_eq, h]

/-- **Which lines are lexically illegal, and where.** Take any session and any line that is short enough. The line is
refused for an illegal character if and only if it has a flaw, and then for its leftmost one, whatever else is wrong
with it: the character that stands there is reported, at the column where it stands. The names to its left, and no
others, are noted in the store; no value changes, and no name becomes readable or hidden. -/
theorem evaluate_flawed (s : Session) (line : String) (hshort : line.utf8ByteSize < s.limit) :
    let result := s.evaluate line
    ((∃ d c, result.1 = .error d ∧ d.fault = .illegalChar c) ↔ ∃ c i, Flaw line.toList c i) ∧
      ∀ d c, result.1 = .error d → d.fault = .illegalChar c →
        let left := (tokensOf line).filter fun t => t.column < d.column
        (∃ i, FirstFlaw line.toList c i ∧ d = .illegalChar c (i + 1)) ∧ result.2.store = s.store.noteAll left ∧
          (∀ name, name ∈ result.2.store.names ↔ name ∈ s.store.names ∨ ∃ t ∈ left, t.terminal = .identifier name) ∧
          ∀ name, result.2.store.content name = s.store.content name := by
  intro result
  constructor
  · constructor
    · rintro ⟨d, c, hd, hfault⟩
      obtain ⟨c, i, hfirst, -⟩ := firstFlaw_of_legality (legality_of_evaluate hshort hd hfault)
      exact ⟨c, i, hfirst.1⟩
    · rintro ⟨c, i, hflaw⟩
      cases hlegal : legality (tokensOf line) with
      | ok u => exact absurd hflaw (not_flaw_of_legality hlegal c i)
      | error d =>
        obtain ⟨c, i, -, hd⟩ := firstFlaw_of_legality hlegal
        exact ⟨d, c, by rw [show result = _ from evaluate_of_legality hshort hlegal], by rw [hd]; rfl⟩
  · intro d c hd hfault left
    have hlegal := legality_of_evaluate hshort hd hfault
    have hstore : result.2.store = s.store.noteAll left := by
      rw [show result = _ from evaluate_of_legality hshort hlegal, scanned_tokensOf hlegal]
    refine ⟨?_, hstore, fun name => ?_, fun name => ?_⟩
    · obtain ⟨c', i, hfirst, rfl⟩ := firstFlaw_of_legality hlegal
      obtain rfl : c' = c := Fault.illegalChar.inj hfault
      exact ⟨i, hfirst, rfl⟩
    · rw [hstore]
      exact s.store.mem_names_noteAll left name
    · rw [hstore]
      exact s.store.content_noteAll left name

/-- `x = <<< $ + y`: the third `<` is the one too many, and what stands behind it is not looked at -/
theorem evaluate_flawed_odd_row :
    let line := "x = <<< $ + y"
    let result := (start defaultLimit).evaluate line
    result.1 = .error (.illegalChar '<' 7) ∧ FirstFlaw line.toList '<' 6 ∧
      "x" ∈ result.2.store.names ∧ "y" ∉ result.2.store.names := by
  intro line result
  have hresult : result.1 = .error (.illegalChar '<' 7) := by decide +kernel
  obtain ⟨⟨i, hfirst, hcolumn⟩, -, hnames, -⟩ :=
    (evaluate_flawed (start defaultLimit) line (by decide)).2 _ '<' hresult rfl
  obtain rfl : 6 = i := Nat.succ.inj (congrArg Diagnostic.column hcolumn)
  have hleft : ∀ t ∈ (tokensOf line).filter fun t => t.column < 7, t.terminal ≠ .identifier "y" := by decide +kernel
  refine ⟨hresult, hfirst, (hnames "x").2 (Or.inr ⟨⟨.identifier "x", 1⟩, by decide +kernel, rfl⟩), fun hy => ?_⟩
  rcases (hnames "y").1 hy with hbefore | ⟨t, ht, hyt⟩
  · cases hbefore
  · exact hleft t ht hyt

end Session

end LineCalc
