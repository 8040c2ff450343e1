/-
Numerals: how far a number on a line reaches, and what it is worth.

The figures are 0 to 9 and a to f, and `figure` is the place of a character among them, in either case. A literal runs
over as many kinds of figures as `Radix.reach` says, of which those below its base count; `Radix.ofFigures` is the
number that a row of figures makes. `Literal.Heads` says how a literal stands at the head of a text: its mark and base
are those that the text announces, and its digits are the figures after the mark, up to a limit.

`tokensFrom_getElem?` puts every token of a line back to the place where it was read.

Result:
- `tokensOf_numeral`: the numbers of a line are read where decimal digits begin, as far as literals reach, and stand for
  the exact number that is written, reduced once.
-/
import LineCalc.Proofs.Spelling

namespace LineCalc

/-! ## Figures -/

def figures : List Char :=
  ['0', '1', '2', '3', '4', '5', '6', '7', '8', '9', 'a', 'b', 'c', 'd', 'e', 'f']

/-- the place of a character among the figures, or 16 if it is none -/
def figure (c : Char) : Nat :=
  figures.idxOf c.toLower

/-- what holds of the first 128 characters holds of a character among them -/
theorem forall_ascii {P : Char → Prop} (h : ∀ n < 128, P (Char.ofNat n)) {c : Char} (hc : c.toNat < 128) : P c := by
  rw [← Char.ofNat_toNat c]
  exact h _ hc

theorem not_le_of_ascii {c d : Char} (hc : 128 ≤ c.toNat) (hd : d.toNat < 128) : ¬ c ≤ d := by
  intro hle
  have hle : c.toNat ≤ d.toNat := UInt32.le_iff_toNat_le.1 hle
  omega

/-- beyond the first 128 characters there are no figures -/
theorem figure_of_le {c : Char} (h : 128 ≤ c.toNat) : figure c = 16 := by
  have hlower : c.toLower = c := dif_neg fun hletter => not_le_of_ascii h (by decide) hletter.2
  have hnot : c ∉ figures := by
    intro hmem
    have hascii : ∀ d ∈ figures, d.toNat < 128 := by simp [figures]
    exact absurd (hascii c hmem) (Nat.not_lt.2 h)
  rw [figure, hlower, List.idxOf_eq_length hnot]
  rfl

namespace Radix

/-- how many of the figures a literal of this base runs over -/
def reach : Radix → Nat
  | binary => 10
  | decimal => 10
  | hexadecimal => 16

/-- the number that some figures make -/
def ofFigures (r : Radix) (cs : List Char) : Nat :=
  Nat.ofDigits r.base (cs.map figure).reverse

theorem isDigit_eq (c : Char) : c.isDigit = decide (figure c < 10) := by
  rcases Nat.lt_or_ge c.toNat 128 with hc | hc
  · exact forall_ascii (P := fun c => c.isDigit = decide (figure c < 10)) (by decide +kernel) hc
  · have hrange : c.isDigit = false := by
      have hnot : ¬ c.val ≤ '9'.val := not_le_of_ascii hc (by decide)
      show (decide ('0'.val ≤ c.val) && decide (c.val ≤ '9'.val)) = false
      rw [decide_eq_false hnot, Bool.and_false]
    rw [hrange, figure_of_le hc]
    rfl

theorem digitOfChar?_eq (c : Char) : digitOfChar? c = if figure c < 16 then some (figure c) else none := by
  rcases Nat.lt_or_ge c.toNat 128 with hc | hc
  · exact forall_ascii (P := fun c => digitOfChar? c = if figure c < 16 then some (figure c) else none)
      (by decide +kernel) hc
  · rw [figure_of_le hc, digitOfChar?, if_neg fun h => not_le_of_ascii hc (by decide) h.2,
      if_neg fun h => not_le_of_ascii hc (by decide) h.2, if_neg fun h => not_le_of_ascii hc (by decide) h.2]
    rfl

theorem base_le (r : Radix) : r.base ≤ 16 := by
  cases r <;> decide

theorem runsOver_eq (r : Radix) : r.runsOver = fun c => decide (figure c < r.reach) := by
  funext c
  cases r with
  | binary => exact isDigit_eq c
  | decimal => exact isDigit_eq c
  | hexadecimal =>
    rw [runsOver, digitOfChar?_eq]
    by_cases h : figure c < 16 <;> simp [h, reach]

theorem isSome_digit?_eq (r : Radix) : (fun c => (r.digit? c).isSome) = fun c => decide (figure c < r.base) := by
  funext c
  have hbase := r.base_le
  rw [digit?, digitOfChar?_eq]
  by_cases h : figure c < r.base
  · have h16 : figure c < 16 := by omega
    simp [h, h16]
  · by_cases h16 : figure c < 16 <;> simp [h, h16]

end Radix

namespace Literal

/-- the number of a literal is what its figures make, up to the first that its base does not have -/
theorem number_eq (l : Literal) :
    l.number = l.radix.ofFigures (l.digits.takeWhile fun c => figure c < l.radix.base) := by
  have hvalue : ∀ c ∈ l.digits.takeWhile fun c => figure c < l.radix.base,
      (Radix.digitOfChar? c).getD 0 = figure c := by
    intro c hc
    have hlt : figure c < l.radix.base := of_decide_eq_true (List.all_eq_true.1 List.all_takeWhile c hc)
    rw [Radix.digitOfChar?_eq, if_pos (Nat.lt_of_lt_of_le hlt l.radix.base_le)]
    rfl
  unfold number
  rw [Radix.isSome_digit?_eq]
  exact congrArg (fun ds : List Nat => Nat.ofDigits l.radix.base ds.reverse) (List.map_congr_left hvalue)

/-! ## The head of a text -/

/-- how a literal stands at the head of a text: its mark is what announces its base, and behind the mark it takes the
first figures, as many as there are without a gap, up to the limit -/
structure Heads (l : Literal) (source : List Char) : Prop where
  binary : ['0', 'b'] <+: source → l.radix = .binary ∧ l.mark = ['0', 'b']
  hexadecimal : ∀ m ∈ ['x', 'X'], ['0', m] <+: source → l.radix = .hexadecimal ∧ l.mark = ['0', m]
  decimal : (∀ m ∈ ['b', 'x', 'X'], ¬ ['0', m] <+: source) → l.radix = .decimal ∧ l.mark = []
  digits : l.digits =
    ((source.drop l.mark.length).takeWhile fun c => figure c < l.radix.reach).take maxDigits

end Literal

/-- a bounded span is the longest one, cut off at the limit -/
theorem Text.splitSpan_fst (p : Char → Bool) (limit : Nat) (cs : List Char) :
    (splitSpan p limit cs).1 = (cs.takeWhile p).take limit := by
  induction cs generalizing limit with
  | nil => cases limit <;> rfl
  | cons c cs ih =>
    cases limit with
    | zero => simp [splitSpan]
    | succ limit => by_cases hc : p c <;> simp [splitSpan, hc, ih]

theorem Radix.ofMark?_eq_some {m : Char} {r : Radix} (h : ofMark? m = some r) :
    (m = 'b' ∧ r = .binary) ∨ (m ∈ ['x', 'X'] ∧ r = .hexadecimal) := by
  unfold ofMark? at h
  split at h <;> cases h <;> simp

namespace Literal

/-- what is read behind a mark are figures up to the limit -/
theorem digits_marked (r : Radix) (mark cs : List Char) :
    (marked r mark cs).1.digits = (cs.takeWhile fun c => figure c < r.reach).take maxDigits := by
  rw [marked, Text.splitSpan_fst, Radix.runsOver_eq]

theorem announced?_of_prefix {source : List Char} {m : Char} {r : Radix} (hm : Radix.ofMark? m = some r)
    (h : ['0', m] <+: source) : ∃ rest, announced? source = some (r, ['0', m], rest) := by
  obtain ⟨rest, rfl⟩ := h
  exact ⟨rest, by simp [announced?, hm]⟩

theorem heads_of_announced {source mark rest : List Char} {r : Radix} (h : announced? source = some (r, mark, rest)) :
    (marked r mark rest).1.Heads source := by
  obtain ⟨happend, -⟩ := announced?_append h
  -- a text begins with one mark at most
  have hmark : ∀ {m' r'}, Radix.ofMark? m' = some r' → ['0', m'] <+: source → r = r' ∧ mark = ['0', m'] := by
    intro m' r' hm' hprefix
    obtain ⟨rest', hrest'⟩ := announced?_of_prefix hm' hprefix
    rw [h] at hrest'
    cases hrest'
    exact ⟨rfl, rfl⟩
  constructor
  case binary => exact hmark rfl
  case hexadecimal =>
    intro m hm
    simp only [List.mem_cons, List.not_mem_nil, or_false] at hm
    rcases hm with rfl | rfl <;> exact hmark rfl
  case decimal =>
    intro hnone
    obtain ⟨m, rfl, hm⟩ := announced?_eq_some h
    have hmem : m ∈ ['b', 'x', 'X'] := by
      rcases Radix.ofMark?_eq_some hm with ⟨rfl, -⟩ | ⟨hx, -⟩
      · exact List.mem_cons_self
      · exact List.mem_cons_of_mem _ hx
    exact absurd ⟨rest, happend⟩ (hnone m hmem)
  case digits =>
    have hrest : source.drop mark.length = rest := by rw [← happend, List.drop_left]
    rw [digits_marked, ← hrest]
    rfl

/-- without a mark the digits begin at once -/
theorem heads_of_unannounced {source : List Char} (h : announced? source = none) :
    (marked .decimal [] source).1.Heads source := by
  have hmark : ∀ {m r}, Radix.ofMark? m = some r → ¬ ['0', m] <+: source := by
    intro m r hm hprefix
    obtain ⟨rest, hrest⟩ := announced?_of_prefix hm hprefix
    rw [h] at hrest
    cases hrest
  constructor
  case binary => exact fun hprefix => absurd hprefix (hmark rfl)
  case hexadecimal =>
    intro m hm hprefix
    simp only [List.mem_cons, List.not_mem_nil, or_false] at hm
    rcases hm with rfl | rfl <;> exact absurd hprefix (hmark rfl)
  case decimal => exact fun _ => ⟨rfl, rfl⟩
  case digits => exact digits_marked .decimal [] source

/-- what is read stands at the head of the text that it is read from -/
theorem heads_read (source : List Char) : (read source).1.Heads source := by
  cases hannounced : announced? source with
  | some a =>
    simp only [read, hannounced]
    exact heads_of_announced hannounced
  | none =>
    simp only [read, hannounced]
    exact heads_of_unannounced hannounced

end Literal

/-! ## Numbers on a line -/

namespace Lexeme

/-- numbers are what begins with a decimal digit -/
theorem number_iff_isDigit (c : Char) (cs : List Char) : (∃ v, (read c cs).1.terminal = .number v) ↔ c.isDigit := by
  unfold read
  split
  next hdigit => simp [hdigit]
  next hdigit =>
    simp only [hdigit]
    split
    · unfold ofWord
      dsimp only
      split <;> simp
    · split <;> simp

/-- what is left of a text stands behind the lexeme -/
theorem drop_read (c : Char) (cs : List Char) : (c :: cs).drop (read c cs).1.text.length = (read c cs).2 := by
  rw [← read_append c cs, List.drop_left]

end Lexeme

/-- every token of a text is read at its column, and the tokens after it are those of the text behind it -/
theorem tokensFrom_getElem? {column : Nat} {cs : List Char} {k : Nat} {t : Token}
    (h : (tokensFrom column cs)[k]? = some t) :
    ∃ n, t.column = column + n ∧ ((cs.drop n = [] ∧ t.terminal = .eof) ∨ ∃ c rest, cs.drop n = c :: rest ∧
      t.terminal = (Lexeme.read c rest).1.terminal ∧
      (tokensFrom column cs).drop (k + 1) =
        tokensFrom (t.column + (Lexeme.read c rest).1.text.length) (Lexeme.read c rest).2) := by
  -- along the text: a token is the one read first, or one of what is left behind it
  fun_induction tokensFrom column cs generalizing k with
  | case1 column =>
    cases k with
    | zero =>
      cases h
      exact ⟨0, rfl, Or.inl ⟨rfl, rfl⟩⟩
    | succ k => cases h
  | case2 column cs ih =>
    obtain ⟨n, hcolumn, hplace⟩ := ih h
    exact ⟨n + 1, by rw [hcolumn]; omega, hplace⟩
  | case3 column c cs hc r =>
    rename_i ih
    cases k with
    | zero =>
      cases h
      exact ⟨0, rfl, Or.inr ⟨c, cs, rfl, rfl, rfl⟩⟩
    | succ k =>
      obtain ⟨n, hcolumn, hplace⟩ := ih h
      refine ⟨(Lexeme.read c cs).1.text.length + n, by rw [hcolumn, Nat.add_assoc], ?_⟩
      rw [← List.drop_drop, Lexeme.drop_read]
      exact hplace

/-- **Numbers are read as far as they reach, and for what they are worth.** A token of a line is a number if and only if
a decimal digit stands at its column. A literal stands there then, with its mark and its digits as `Literal.Heads` says,
such that
- the number is what the digits make in the base that is announced, up to the first that is none in this base, reduced
  to a word once;
- the tokens after it are those of what is left of the line behind the literal. -/
theorem tokensOf_numeral (line : String) {k : Nat} {t : Token} (h : (tokensOf line)[k]? = some t) :
    let source := line.toList.drop (t.column - 1)
    ((∃ v, t.terminal = .number v) ↔ ∃ c ∈ source.head?, figure c < 10) ∧
      ∀ v, t.terminal = .number v → ∃ l : Literal, l.Heads source ∧ l.text <+: source ∧
        v = .ofNat (l.radix.ofFigures (l.digits.takeWhile fun c => figure c < l.radix.base)) ∧
        (tokensOf line).drop (k + 1) = tokensFrom (t.column + l.text.length) (source.drop l.text.length) := by
  obtain ⟨n, hcolumn, hplace⟩ := tokensFrom_getElem? h
  have hn : t.column - 1 = n := by omega
  intro source
  have hsource : source = line.toList.drop n := by rw [← hn]
  rcases hplace with ⟨hend, hterminal⟩ | ⟨c, rest, hrest, hterminal, hdrop⟩
  · rw [hsource, hend, hterminal]
    simp
  · rw [hsource, hrest]
    refine ⟨?_, fun v hv => ?_⟩
    · rw [hterminal, Lexeme.number_iff_isDigit, Radix.isDigit_eq]
      simp
    · have hdigit : c.isDigit := (Lexeme.number_iff_isDigit c rest).1 ⟨v, by rw [← hterminal, hv]⟩
      have hread : Lexeme.read c rest =
          (⟨.number (Literal.read (c :: rest)).1.value, (Literal.read (c :: rest)).1.text⟩,
            (Literal.read (c :: rest)).2) := if_pos hdigit
      have hbehind := Lexeme.drop_read c rest
      rw [hread] at hterminal hdrop hbehind
      refine ⟨(Literal.read (c :: rest)).1, Literal.heads_read _, ⟨_, Literal.read_append (c :: rest)⟩, ?_, ?_⟩
      · rw [hv] at hterminal
        rw [← Literal.number_eq, ← Literal.value_eq]
        exact Terminal.number.inj hterminal
      · rw [hbehind]
        exact hdrop

/-- a binary literal takes decimal digits as well, counts those below 2, and leaves the letter alone -/
theorem tokensOf_numeral_binary :
    (tokensOf "5 0b1201f")[1]? = some ⟨.number 1, 3⟩ ∧ ∃ l : Literal, l.Heads "0b1201f".toList ∧
      l.text <+: "0b1201f".toList ∧
      (1 : Int64) = .ofNat (l.radix.ofFigures (l.digits.takeWhile fun c => figure c < l.radix.base)) ∧
      (tokensOf "5 0b1201f").drop 2 = tokensFrom (3 + l.text.length) ("0b1201f".toList.drop l.text.length) := by
  have ht : (tokensOf "5 0b1201f")[1]? = some ⟨.number 1, 3⟩ := by decide +kernel
  have hsource : "5 0b1201f".toList.drop 2 = "0b1201f".toList := by decide
  refine ⟨ht, ?_⟩
  rw [← hsource]
  exact (tokensOf_numeral "5 0b1201f" ht).2 1 rfl

end LineCalc
