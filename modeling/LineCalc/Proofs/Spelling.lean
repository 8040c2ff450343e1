/-
How lexemes are written, and that reading takes back what was written.

A `Spelling` is a symbol, a keyword, a name or a literal as it stands on a line. `Spelling.IsLegal` says which characters
it may have and `Spelling.terminal` what it stands for: a literal stands for the exact number that its digits make
(`Literal.number`), reduced to a word once (`Literal.value_eq`). `Spelling.EndsBefore` says of a text that the spelling
in front of it is over there: it could not go on, or it has reached its limit.

`Lexeme.read_spelling` and `Lexeme.spelling_of_read` are the two directions of one fact: what is read off a text is a
legal spelling that ends before the rest, and the only one that does. What is no spelling is an illegal character.

Result:
- `tokensOf_written`: lexemes with spaces between them are read as they were written.
-/
import Mathlib.Data.Nat.Digits.Defs
import LineCalc.Proofs.Delimiting

namespace LineCalc

/-! ## What a literal stands for -/

namespace Radix

theorem word_eq (r : Radix) (digits : List Nat) : r.word digits = Int64.ofNat (Nat.ofDigits r.base digits.reverse) := by
  have hstep : ∀ n : Nat, digits.foldl (fun acc d => acc * Int64.ofNat r.base + Int64.ofNat d) (Int64.ofNat n) =
      Int64.ofNat (digits.foldl (fun acc d => acc * r.base + d) n) := by
    induction digits with
    | nil => intro n; rfl
    | cons d digits ih =>
      intro n
      rw [List.foldl_cons, List.foldl_cons, ← ih, Int64.ofNat_add, Int64.ofNat_mul]
  rw [Nat.ofDigits_eq_foldr, List.foldr_reverse]
  simp only [Nat.cast_id, Nat.add_comm, Nat.mul_comm] at hstep ⊢
  exact hstep 0

theorem leadingDigits_eq (r : Radix) (cs : List Char) :
    r.leadingDigits cs = (cs.takeWhile fun c => (r.digit? c).isSome).map fun c => (digitOfChar? c).getD 0 := by
  induction cs with
  | nil => rfl
  | cons c cs ih =>
    unfold leadingDigits
    cases hc : r.digit? c with
    | none => simp [hc]
    | some d =>
      have hd : digitOfChar? c = some d := (Option.filter_eq_some_iff.1 hc).1
      simp [hc, hd, ih]

theorem ofMark?_of_isDigit {c : Char} (h : c.isDigit) : ofMark? c = none := by
  unfold ofMark?
  split
  · exact absurd h (by decide)
  · exact absurd h (by decide)
  · exact absurd h (by decide)
  · rfl

end Radix

namespace Literal

/-- the number that the digits of a literal make, read up to the first that is none in its base -/
def number (l : Literal) : Nat :=
  let counted := l.digits.takeWhile fun c => (l.radix.digit? c).isSome
  Nat.ofDigits l.radix.base (counted.map fun c => (Radix.digitOfChar? c).getD 0).reverse

/-- the value of a literal is its number, reduced once -/
theorem value_eq (l : Literal) : l.value = Int64.ofNat l.number := by
  rw [value, Radix.word_eq, Radix.leadingDigits_eq]
  rfl

/-- which literals are written: decimal digits, or the mark of a base and the digits that the base runs over -/
structure IsLegal (l : Literal) : Prop where
  length_le : l.digits.length ≤ maxDigits
  runsOver : ∀ c ∈ l.digits, l.radix.runsOver c
  mark : (l.radix = .decimal ∧ l.mark = [] ∧ l.digits ≠ []) ∨ ∃ m, l.mark = ['0', m] ∧ Radix.ofMark? m = some l.radix

/-- a text in which a literal in front of it does not go on -/
structure EndsBefore (l : Literal) (rest : List Char) : Prop where
  digit : l.digits.length < maxDigits → ∀ c ∈ rest.head?, l.radix.runsOver c = false
  /-- a lone zero would be taken for the beginning of a mark -/
  mark : l.text = ['0'] → ∀ c ∈ rest.head?, Radix.ofMark? c = none

/-- a literal begins with a digit, marked or not -/
theorem isDigit_head {l : Literal} (h : l.IsLegal) {c : Char} {cs : List Char} (htext : l.text = c :: cs) :
    c.isDigit := by
  rcases h.mark with ⟨hradix, hmark, -⟩ | ⟨m, hmark, -⟩
  · rw [text, hmark, List.nil_append] at htext
    have hrun := h.runsOver c (by rw [htext]; exact List.mem_cons_self)
    rwa [hradix] at hrun
  · rw [text, hmark] at htext
    rw [← (List.cons.inj htext).1]
    decide

theorem marked_of_ends {l : Literal} (h : l.IsLegal) {rest : List Char} (hends : l.EndsBefore rest) :
    marked l.radix l.mark (l.digits ++ rest) = (l, rest) := by
  rw [marked, Text.splitSpan_append_of_stop h.runsOver h.length_le hends.digit]

/-- a literal is read as it was written -/
theorem read_of_ends {l : Literal} (h : l.IsLegal) {rest : List Char} (hends : l.EndsBefore rest) :
    read (l.text ++ rest) = (l, rest) := by
  rcases h.mark with ⟨hradix, hmark, hdigits⟩ | ⟨m, hmark, hm⟩
  · obtain ⟨c, cs, hcs⟩ := List.exists_cons_of_ne_nil hdigits
    have htext : l.text = c :: cs := by rw [text, hmark, hcs, List.nil_append]
    have hnone : announced? (l.text ++ rest) = none := by
      rw [htext, List.cons_append, announced?_cons_eq_none_iff]
      rintro rfl d hd
      cases cs with
      | nil => exact hends.mark htext d hd
      | cons e es =>
        cases hd
        have hdigit := h.runsOver d (by rw [hcs]; simp)
        rw [hradix] at hdigit
        exact Radix.ofMark?_of_isDigit hdigit
    have hread : read (l.text ++ rest) = marked .decimal [] (l.text ++ rest) := by simp only [read, hnone]
    have hmarked := marked_of_ends h hends
    rw [hradix, hmark] at hmarked
    rw [hread, ← hmarked, text, hmark, List.nil_append]
  · have hread : read (l.text ++ rest) = marked l.radix ['0', m] (l.digits ++ rest) := by
      rw [text, hmark, List.append_assoc]
      simp [read, announced?, hm]
    rw [hread, ← hmark, marked_of_ends h hends]

/-- what is read off a text that begins with a digit is a legal literal, and it does not go on -/
theorem isLegal_read {c : Char} (hc : c.isDigit) (cs : List Char) :
    (read (c :: cs)).1.IsLegal ∧ (read (c :: cs)).1.EndsBefore (read (c :: cs)).2 := by
  cases hannounced : announced? (c :: cs) with
  | some a =>
    obtain ⟨r, mark, rest⟩ := a
    obtain ⟨m, rfl, hm⟩ := announced?_eq_some hannounced
    have hread : read (c :: cs) = marked r ['0', m] rest := by simp only [read, hannounced]
    rw [hread]
    refine ⟨⟨Text.length_splitSpan_le _ _ _, Text.splitSpan_all _ _ _, Or.inr ⟨m, rfl, hm⟩⟩, ?_⟩
    exact ⟨Text.splitSpan_maximal, fun htext => by cases htext⟩
  | none =>
    have hread : read (c :: cs) = marked .decimal [] (c :: cs) := by simp only [read, hannounced]
    have hne := text_read_ne_nil hc cs
    have happend := read_append (c :: cs)
    rw [hread] at hne happend ⊢
    refine ⟨⟨Text.length_splitSpan_le _ _ _, Text.splitSpan_all _ _ _, Or.inl ⟨rfl, rfl, hne⟩⟩, ?_⟩
    refine ⟨Text.splitSpan_maximal, fun htext => ?_⟩
    rw [htext] at happend
    obtain ⟨rfl, hcs⟩ := List.cons.inj happend
    rw [show (marked .decimal [] ('0' :: cs)).2 = cs from hcs]
    exact announced?_cons_eq_none_iff.1 hannounced rfl

end Literal

/-! ## Spellings -/

/-- a lexeme as it is written -/
inductive Spelling where
  | symbol (s : Symbol)
  | keyword (k : Keyword)
  | name (letters : List Char)
  | literal (l : Literal)
deriving DecidableEq, Repr

namespace Spelling

def text : Spelling → List Char
  | symbol s => s.chars
  | keyword k => k.text.toList
  | name letters => letters
  | literal l => l.text

/-- what a spelling stands for -/
def terminal : Spelling → Terminal
  | symbol s => .symbol s
  | keyword k => .keyword k
  | name letters => .identifier (String.ofList letters)
  | literal l => .number (Int64.ofNat l.number)

/-- which characters may be written: a name is a row of letters, not too long, that is no keyword -/
def IsLegal : Spelling → Prop
  | symbol _ => True
  | keyword _ => True
  | name letters =>
    letters ≠ [] ∧ letters.length ≤ Lexeme.maxName ∧ (∀ c ∈ letters, c.isAlpha) ∧ ∀ k : Keyword, k.text.toList ≠ letters
  | literal l => l.IsLegal

/-- a text in which the spelling in front of it does not go on -/
def EndsBefore (rest : List Char) : Spelling → Prop
  | symbol s => s = .star → ∀ c ∈ rest.head?, c ≠ '*'
  | keyword k => k.text.toList.length < Lexeme.maxName → ∀ c ∈ rest.head?, c.isAlpha = false
  | name letters => letters.length < Lexeme.maxName → ∀ c ∈ rest.head?, c.isAlpha = false
  | literal l => l.EndsBefore rest

/-- a space ends every spelling, and so does the end of a line -/
theorem endsBefore_of_space (sp : Spelling) {rest : List Char} (h : ∀ c ∈ rest.head?, c = ' ') :
    sp.EndsBefore rest := by
  cases sp with
  | symbol s =>
    intro _ c hc
    rw [h c hc]
    decide
  | keyword k =>
    intro _ c hc
    rw [h c hc]
    decide
  | name letters =>
    intro _ c hc
    rw [h c hc]
    decide
  | literal l =>
    refine ⟨fun _ c hc => ?_, fun _ c hc => ?_⟩
    · rw [h c hc]
      cases l.radix <;> decide
    · rw [h c hc]
      rfl

end Spelling

theorem Symbol.not_alnum (s : Symbol) : ∀ c ∈ s.chars, c.isDigit = false ∧ c.isAlpha = false := by
  cases s <;> simp [chars]

theorem Keyword.isAlpha_text (k : Keyword) : ∀ c ∈ k.text.toList, c.isAlpha := by
  cases k <;> simp [text]

theorem Keyword.length_text_le (k : Keyword) : k.text.toList.length ≤ Lexeme.maxName := by
  cases k <;> decide

theorem Keyword.ofText?_eq_none {letters : List Char} (h : ∀ k : Keyword, k.text.toList ≠ letters) :
    ofText? (String.ofList letters) = none := by
  cases hfound : ofText? (String.ofList letters) with
  | none => rfl
  | some k =>
    have htext : k.text.toList = letters := by rw [text_of_ofText? hfound, String.toList_ofList]
    exact absurd htext (h k)

namespace Lexeme

theorem ofWord_keyword (k : Keyword) : ofWord k.text.toList = ⟨.keyword k, k.text.toList⟩ := by
  simp [ofWord, Keyword.ofText?_text]

theorem ofWord_name {letters : List Char} (h : ∀ k : Keyword, k.text.toList ≠ letters) :
    ofWord letters = ⟨.identifier (String.ofList letters), letters⟩ := by
  simp [ofWord, Keyword.ofText?_eq_none h]

theorem isDigit_eq_false_of_isAlpha {c : Char} (h : c.isAlpha) : c.isDigit = false := by
  have hletter : (decide ('A'.val ≤ c.val ∧ c.val ≤ 'Z'.val) ||
      decide ('a'.val ≤ c.val) && decide (c.val ≤ 'z'.val)) = true := h
  show (decide ('0'.val ≤ c.val) && decide (c.val ≤ '9'.val)) = false
  simp only [Bool.or_eq_true, Bool.and_eq_true, Bool.and_eq_false_iff, decide_eq_true_eq, decide_eq_false_iff_not,
    UInt32.le_iff_toNat_le] at hletter ⊢
  have h9 : '9'.val.toNat = 57 := rfl
  have hA : 'A'.val.toNat = 65 := rfl
  have ha : 'a'.val.toNat = 97 := rfl
  omega

/-- a word is read as it was written -/
theorem read_word {c : Char} {cs rest : List Char} (hletters : ∀ d ∈ c :: cs, d.isAlpha)
    (hlength : (c :: cs).length ≤ maxName)
    (hends : (c :: cs).length < maxName → ∀ d ∈ rest.head?, d.isAlpha = false) :
    read c (cs ++ rest) = (ofWord (c :: cs), rest) := by
  have halpha := hletters c List.mem_cons_self
  have hdigit := isDigit_eq_false_of_isAlpha halpha
  have hspan := Text.splitSpan_append_of_stop hletters hlength hends
  rw [List.cons_append] at hspan
  simp [read, hdigit, halpha, hspan]

/-- **A legal spelling is read as it was written**, wherever it ends. -/
theorem read_spelling {sp : Spelling} (h : sp.IsLegal) {rest : List Char} (hends : sp.EndsBefore rest) {c : Char}
    {cs : List Char} (htext : sp.text = c :: cs) : read c (cs ++ rest) = (⟨sp.terminal, sp.text⟩, rest) := by
  cases sp with
  | symbol s =>
    have hchars : s.chars = c :: cs := htext
    obtain ⟨hdigit, halpha⟩ := s.not_alnum c (by rw [hchars]; exact List.mem_cons_self)
    have hleading := Symbol.leading?_chars_append s rest hends
    rw [hchars, List.cons_append] at hleading
    have hdrop : (c :: (cs ++ rest)).drop s.chars.length = rest := by
      rw [hchars, ← List.cons_append, List.drop_left]
    simp only [read, hdigit, halpha, hleading, hdrop]
    rfl
  | keyword k =>
    have hletters : k.text.toList = c :: cs := htext
    have hends : k.text.toList.length < maxName → ∀ d ∈ rest.head?, d.isAlpha = false := hends
    have hword := read_word (hletters ▸ k.isAlpha_text) (hletters ▸ k.length_text_le) (hletters ▸ hends)
    rw [hword, ← hletters, ofWord_keyword]
    rfl
  | name letters =>
    have hletters : letters = c :: cs := htext
    obtain ⟨-, hlength, halpha, hkeyword⟩ := h
    have hends : letters.length < maxName → ∀ d ∈ rest.head?, d.isAlpha = false := hends
    have hword := read_word (hletters ▸ halpha) (hletters ▸ hlength) (hletters ▸ hends)
    rw [hword, ← hletters, ofWord_name hkeyword]
    rfl
  | literal l =>
    have hl : l.text = c :: cs := htext
    have hread := Literal.read_of_ends h hends
    rw [hl, List.cons_append] at hread
    have hdigit := l.isDigit_head h hl
    simp only [read, hdigit, hread, if_true, l.value_eq]
    rfl

theorem read_spelling_alone {sp : Spelling} (h : sp.IsLegal) {c : Char} {cs : List Char} (htext : sp.text = c :: cs) :
    read c cs = (⟨sp.terminal, sp.text⟩, []) := by
  have hends : sp.EndsBefore [] := sp.endsBefore_of_space (by simp)
  have hread := read_spelling h hends htext
  rwa [List.append_nil] at hread

/-- what is read is a legal spelling that ends before the rest, or else an illegal character -/
theorem spelling_of_read (c : Char) (cs : List Char) :
    (∃ sp : Spelling, sp.IsLegal ∧ sp.EndsBefore (read c cs).2 ∧ (read c cs).1 = ⟨sp.terminal, sp.text⟩) ∨
      (Symbol.leading? (c :: cs) = none ∧ c.isDigit = false ∧ c.isAlpha = false) := by
  by_cases hdigit : c.isDigit
  · left
    have hread : read c cs = (⟨.number (Literal.read (c :: cs)).1.value, (Literal.read (c :: cs)).1.text⟩,
        (Literal.read (c :: cs)).2) := if_pos hdigit
    obtain ⟨hlegal, hends⟩ := Literal.isLegal_read hdigit cs
    rw [hread]
    exact ⟨.literal (Literal.read (c :: cs)).1, hlegal, hends, by rw [Literal.value_eq]; rfl⟩
  by_cases halpha : c.isAlpha
  · left
    have hread : read c cs = (ofWord (Text.splitSpan Char.isAlpha maxName (c :: cs)).1,
        (Text.splitSpan Char.isAlpha maxName (c :: cs)).2) := by
      rw [read, if_neg hdigit, if_pos halpha]
    have hletters := Text.splitSpan_all Char.isAlpha maxName (c :: cs)
    have hlength := Text.length_splitSpan_le Char.isAlpha maxName (c :: cs)
    have hends : (Text.splitSpan Char.isAlpha maxName (c :: cs)).1.length < maxName →
        ∀ d ∈ (Text.splitSpan Char.isAlpha maxName (c :: cs)).2.head?, d.isAlpha = false := Text.splitSpan_maximal
    have hne := text_read_ne_nil c cs
    rw [hread, text_ofWord] at hne
    rw [hread]
    generalize Text.splitSpan Char.isAlpha maxName (c :: cs) = span at *
    by_cases hkeyword : ∃ k : Keyword, k.text.toList = span.1
    · obtain ⟨k, hk⟩ := hkeyword
      refine ⟨.keyword k, trivial, hk ▸ hends, ?_⟩
      rw [← hk, ofWord_keyword]
      rfl
    · have hname : ∀ k : Keyword, k.text.toList ≠ span.1 := fun k hk => hkeyword ⟨k, hk⟩
      exact ⟨.name span.1, ⟨hne, hlength, hletters, hname⟩, hends, ofWord_name hname⟩
  cases hsymbol : Symbol.leading? (c :: cs) with
  | none => exact Or.inr ⟨rfl, Bool.eq_false_of_not_eq_true hdigit, Bool.eq_false_of_not_eq_true halpha⟩
  | some s =>
    left
    have hread : read c cs = (⟨.symbol s, s.chars⟩, (c :: cs).drop s.chars.length) := by
      simp only [read, hdigit, halpha, hsymbol]
      rfl
    rw [hread]
    refine ⟨.symbol s, trivial, ?_, rfl⟩
    rintro rfl
    obtain ⟨rfl, -⟩ := List.cons_prefix_cons.1 (Symbol.chars_prefix_of_leading? hsymbol)
    exact Symbol.head_ne_of_leading?_star hsymbol

end Lexeme

/-! ## Lines of spellings -/

theorem Spelling.text_eq_cons {sp : Spelling} (h : sp.IsLegal) : ∃ c cs, sp.text = c :: cs ∧ c ≠ ' ' := by
  -- a spelling that began with a space would be read as it is written, but a space is an illegal character
  have hspace : ∀ c cs, sp.text = c :: cs → c ≠ ' ' := by
    rintro c cs htext rfl
    have hspelled : (Lexeme.read ' ' cs).1.terminal = .illegal ' ' := by
      simp [Lexeme.read, Symbol.leading?, Symbol.all, Symbol.chars, List.isPrefixOf]
    rw [Lexeme.read_spelling_alone h htext] at hspelled
    cases sp <;> cases hspelled
  have hne : sp.text ≠ [] := by
    cases sp with
    | symbol s => exact s.chars_ne_nil
    | keyword k => cases k <;> decide
    | name letters => exact h.1
    | literal l =>
      rcases h.mark with ⟨-, -, hdigits⟩ | ⟨m, hmark, -⟩
      · simpa [text, Literal.text] using fun _ => hdigits
      · simp [text, Literal.text, hmark]
  obtain ⟨c, cs, htext⟩ := List.exists_cons_of_ne_nil hne
  exact ⟨c, cs, htext, hspace c cs htext⟩

theorem tokensFrom_spaces (column n : Nat) (cs : List Char) :
    tokensFrom column (List.replicate n ' ' ++ cs) = tokensFrom (column + n) cs := by
  induction n generalizing column with
  | zero => rfl
  | succ n ih =>
    rw [List.replicate_succ, List.cons_append, tokensFrom, if_pos rfl, ih, Nat.add_assoc, Nat.add_comm 1]

theorem tokensFrom_spelling {sp : Spelling} (h : sp.IsLegal) {rest : List Char} (hends : sp.EndsBefore rest)
    (column : Nat) :
    tokensFrom column (sp.text ++ rest) = ⟨sp.terminal, column⟩ :: tokensFrom (column + sp.text.length) rest := by
  obtain ⟨c, cs, htext, hc⟩ := Spelling.text_eq_cons h
  have hread := Lexeme.read_spelling h hends htext
  rw [htext, List.cons_append, tokensFrom, if_neg hc]
  simp only [hread, htext]

/-- a lexeme on a line, with the number of spaces in front of it -/
structure Placed where
  gap : Nat
  spelling : Spelling
deriving DecidableEq, Repr

def Placed.chars (p : Placed) : List Char := List.replicate p.gap ' ' ++ p.spelling.text

/-- a line of lexemes, each behind its spaces, with spaces at the end -/
def written (ps : List Placed) (trailing : Nat) : List Char :=
  ps.flatMap Placed.chars ++ List.replicate trailing ' '

theorem written_cons (p : Placed) (ps : List Placed) (trailing : Nat) :
    written (p :: ps) trailing = List.replicate p.gap ' ' ++ (p.spelling.text ++ written ps trailing) := by
  simp [written, Placed.chars]

theorem head_written {ps : List Placed} (hgaps : ∀ p ∈ ps, 1 ≤ p.gap) (trailing : Nat) :
    ∀ c ∈ (written ps trailing).head?, c = ' ' := by
  cases ps with
  | nil =>
    cases trailing with
    | zero => simp [written]
    | succ n => simp [written, List.replicate_succ]
  | cons p ps =>
    obtain ⟨n, hn⟩ := Nat.exists_eq_add_of_le' (hgaps p List.mem_cons_self)
    simp [written_cons, hn, List.replicate_succ]

theorem tokensFrom_written {ps : List Placed} (trailing : Nat) (hlegal : ∀ p ∈ ps, p.spelling.IsLegal)
    (hgaps : ∀ p ∈ ps.tail, 1 ≤ p.gap) (column : Nat) :
    tokensFrom column (written ps trailing) =
      (ps.mapIdx fun i p => ⟨p.spelling.terminal, column + ((ps.take i).flatMap Placed.chars).length + p.gap⟩) ++
        [⟨.eof, column + (written ps trailing).length⟩] := by
  induction ps generalizing column with
  | nil =>
    have hspaces := tokensFrom_spaces column trailing []
    rw [List.append_nil] at hspaces
    simp [written, hspaces, tokensFrom]
  | cons p ps ih =>
    have hrest : ∀ q ∈ ps.tail, 1 ≤ q.gap := fun q hq => hgaps q (List.mem_of_mem_tail hq)
    have hends : p.spelling.EndsBefore (written ps trailing) :=
      p.spelling.endsBefore_of_space (head_written hgaps trailing)
    rw [written_cons, tokensFrom_spaces, tokensFrom_spelling (hlegal p List.mem_cons_self) hends,
      ih (fun q hq => hlegal q (List.mem_cons_of_mem p hq)) hrest, List.mapIdx_cons]
    simp [Placed.chars, Nat.add_assoc]

/-- **Lexemes are read as they were written.** Legal spellings, with spaces between neighbours and any number of spaces
at both ends, are read as the terminals they stand for, in order, each at the column after the characters in front of it,
and the line ends with one `eof`. -/
theorem tokensOf_written {ps : List Placed} (trailing : Nat) (hlegal : ∀ p ∈ ps, p.spelling.IsLegal)
    (hgaps : ∀ p ∈ ps.tail, 1 ≤ p.gap) :
    tokensOf (String.ofList (written ps trailing)) =
      (ps.mapIdx fun i p => ⟨p.spelling.terminal, 1 + ((ps.take i).flatMap Placed.chars).length + p.gap⟩) ++
        [⟨.eof, (written ps trailing).length + 1⟩] := by
  rw [tokensOf, String.toList_ofList, tokensFrom_written trailing hlegal hgaps,
    Nat.add_comm 1 (written ps trailing).length]

/-- a line with numbers in two bases, names, a keyword and two symbols that would otherwise run together -/
theorem tokensOf_written_mixed :
    let ps : List Placed :=
      [⟨2, .literal ⟨.hexadecimal, ['0', 'X'], ['f', 'F']⟩⟩, ⟨2, .name ['x']⟩, ⟨1, .keyword .sum⟩,
        ⟨1, .literal ⟨.binary, ['0', 'b'], ['1', '2']⟩⟩, ⟨1, .symbol .starStar⟩, ⟨3, .symbol .star⟩]
    (∀ p ∈ ps, p.spelling.IsLegal) ∧ (∀ p ∈ ps.tail, 1 ≤ p.gap) ∧ written ps 1 = "  0XfF  x sum 0b12 **   * ".toList ∧
      tokensOf (String.ofList (written ps 1)) =
        [⟨.number 255, 3⟩, ⟨.identifier "x", 9⟩, ⟨.keyword .sum, 11⟩, ⟨.number 1, 15⟩, ⟨.symbol .starStar, 20⟩,
          ⟨.symbol .star, 25⟩, ⟨.eof, 27⟩] := by
  intro ps
  have hlegal : ∀ p ∈ ps, p.spelling.IsLegal := by
    simp only [ps, List.mem_cons, List.not_mem_nil, or_false, forall_eq_or_imp, forall_eq]
    refine ⟨⟨by decide, List.all_eq_true.1 (by decide), Or.inr ⟨'X', rfl, rfl⟩⟩,
      ⟨by decide, by decide, List.all_eq_true.1 (by decide), ?_⟩, trivial,
      ⟨by decide, List.all_eq_true.1 (by decide), Or.inr ⟨'b', rfl, rfl⟩⟩, trivial, trivial⟩
    rintro (_ | _ | _ | _) <;> decide
  have hgaps : ∀ p ∈ ps.tail, 1 ≤ p.gap := by decide
  refine ⟨hlegal, hgaps, by decide, ?_⟩
  rw [tokensOf_written 1 hlegal hgaps]
  decide +kernel

end LineCalc
