/-
The tokens of a line tile it: nothing is lost, nothing is read twice, and only spaces are passed over.

A `Span` is a token with the characters it covers. `Tiles column cs spans` says that `cs`, whose first character stands
at `column`, is the texts of `spans` one after another with spaces between them, each beginning at the column of its
token. `Span.Fits` says of one span, and of the text behind it, what the kind of its token asks for: a word is a row of
letters, a number a literal, a symbol its own spelling, and none of them could have gone on. `tokensFrom_tiles` says that
every line is tiled by its tokens; what a tiling amounts to follows from `Tiles` alone (`Tiles.apart`, `Tiles.stands`,
`Tiles.covers`).

Result:
- `tokensOf_partition`: the tokens of a line, taken one by one until there are no more, partition it into spans that fit
  and spaces.
-/
import LineCalc.Scanner
import LineCalc.Proofs.Scanning
import LineCalc.Proofs.Spelling

namespace LineCalc

/-! ## Spans -/

/-- a keyword or a name -/
inductive Terminal.IsWord : Terminal → Prop
  | keyword (k : Keyword) : IsWord (.keyword k)
  | identifier (name : String) : IsWord (.identifier name)

/-- a token with the characters it covers -/
structure Span where
  token : Token
  text : List Char
deriving DecidableEq, Repr

namespace Span

/-- a column at which a character of the span stands -/
def Covers (s : Span) (column : Nat) : Prop :=
  s.token.column ≤ column ∧ column < s.token.column + s.text.length

/-- what the token of a span asks of its text and of the text behind it -/
structure Fits (s : Span) (rest : List Char) : Prop where
  ne_nil : s.text ≠ []
  ne_eof : s.token.terminal ≠ .eof
  /-- a row of letters is not too long, and a keyword if it is written like one, else a name -/
  letters : (∀ c ∈ s.text, c.isAlpha) → s.text.length ≤ Lexeme.maxName ∧
    (∀ k : Keyword, k.text.toList = s.text → s.token.terminal = .keyword k) ∧
    ((∀ k : Keyword, k.text.toList ≠ s.text) → s.token.terminal = .identifier (String.ofList s.text))
  /-- a word is a row of letters, and below the limit no letter follows -/
  word : s.token.terminal.IsWord → (∀ c ∈ s.text, c.isAlpha) ∧
    (s.text.length < Lexeme.maxName → ∀ c ∈ rest.head?, c.isAlpha = false)
  /-- a number is a literal, and below the limit no digit of its kind follows -/
  number : ∀ v, s.token.terminal = .number v → ∃ l : Literal, l.IsLegal ∧ s.text = l.text ∧
    v = Int64.ofNat l.number ∧ (l.digits.length < Literal.maxDigits → ∀ c ∈ rest.head?, l.radix.runsOver c = false)
  /-- a symbol is written as it is spelled, and a star stands in front of no other -/
  symbol : ∀ x, s.token.terminal = .symbol x → s.text = x.chars ∧ (x = .star → ∀ c ∈ rest.head?, c ≠ '*')
  /-- an illegal character stands alone, but for a second dot -/
  illegal : ∀ c, s.token.terminal = .illegal c → s.text = [c] ∨ c = '.' ∧ s.text = ['.', '.']
  /-- the text alone determines the token -/
  alone : tokensOf (String.ofList s.text) = [⟨s.token.terminal, 1⟩, ⟨.eof, s.text.length + 1⟩]

end Span

/-! ## What is read fits -/

theorem Keyword.text_injective {k k' : Keyword} (h : k.text.toList = k'.text.toList) : k = k' := by
  have htext : k.text = k'.text := String.toList_inj.1 h
  have hfound := ofText?_text k
  rw [htext, ofText?_text] at hfound
  exact (Option.some.inj hfound).symm

namespace Lexeme

/-- an illegal character is read off alone, but for a second dot -/
theorem spoiled_cases {c : Char} {cs : List Char} (h : Symbol.leading? (c :: cs) = none) :
    spoiled c cs = [] ∨ c = '.' ∧ spoiled c cs = ['.'] := by
  by_cases hc : c = '.'
  · subst hc
    rw [spoiled, if_pos rfl]
    rw [Symbol.leading?_eq_none_iff] at h
    have hellipsis := h .ellipsis
    cases cs with
    | nil => exact Or.inl rfl
    | cons d cs =>
      by_cases hd : d = '.'
      · subst hd
        right
        cases cs with
        | nil => exact ⟨rfl, rfl⟩
        | cons e cs =>
          have he : e ≠ '.' := by
            rintro rfl
            exact hellipsis ⟨cs, rfl⟩
          simp [he]
      · left
        simp [hd]
  · left
    rw [spoiled, if_neg hc]

theorem read_illegal {c : Char} {cs : List Char} (hsymbol : Symbol.leading? (c :: cs) = none)
    (hdigit : c.isDigit = false) (halpha : c.isAlpha = false) : read c cs = (⟨.illegal c, c :: spoiled c cs⟩, cs.drop (spoiled c cs).length) := by
  simp only [read, hdigit, halpha, hsymbol]
  rfl

/-- a lexeme that stands alone is read as it is inside a line -/
theorem read_alone {c : Char} {cs us : List Char} (h : (read c cs).1.text = c :: us) :
    read c us = ((read c cs).1, []) := by
  rcases spelling_of_read c cs with ⟨sp, hlegal, -, hlexeme⟩ | ⟨hsymbol, hdigit, halpha⟩
  · rw [hlexeme] at h ⊢
    exact read_spelling_alone hlegal h
  · rw [read_illegal hsymbol hdigit halpha] at h ⊢
    obtain rfl : spoiled c cs = us := (List.cons.inj h).2
    have hagain : spoiled c (spoiled c cs) = spoiled c cs := by
      rcases spoiled_cases hsymbol with hs | ⟨rfl, hs⟩
      · rw [hs]
        simp [spoiled]
      · rw [hs]
        rfl
    have hnone : Symbol.leading? (c :: spoiled c cs) = none := by
      rw [Symbol.leading?_eq_none_iff] at hsymbol ⊢
      intro s hs
      exact hsymbol s (hs.trans (List.cons_prefix_cons.2 ⟨rfl, spoiled_isPrefix c cs⟩))
    rw [read_illegal hnone hdigit halpha, hagain, List.drop_length]

theorem tokensOf_alone {c : Char} (hc : c ≠ ' ') (cs : List Char) :
    tokensOf (String.ofList (read c cs).1.text) =
      [⟨(read c cs).1.terminal, 1⟩, ⟨.eof, (read c cs).1.text.length + 1⟩] := by
  obtain ⟨d, us, htext⟩ := List.exists_cons_of_ne_nil (text_read_ne_nil c cs)
  have happend := read_append c cs
  rw [htext] at happend
  obtain rfl : d = c := (List.cons.inj happend).1
  have hread := read_alone htext
  rw [tokensOf, String.toList_ofList]
  conv_lhs => rw [htext, tokensFrom, if_neg hc]
  simp only [hread, tokensFrom, Nat.add_comm 1]

end Lexeme

/-- a legal spelling in front of a text where it ends fits there -/
theorem Spelling.fits {sp : Spelling} (hlegal : sp.IsLegal) {rest : List Char} (hends : sp.EndsBefore rest)
    (column : Nat) : Span.Fits ⟨⟨sp.terminal, column⟩, sp.text⟩ rest := by
  obtain ⟨c, cs, htext, hc⟩ := sp.text_eq_cons hlegal
  have hread := Lexeme.read_spelling hlegal hends htext
  have halone := Lexeme.tokensOf_alone hc (cs ++ rest)
  rw [hread] at halone
  have hne : sp.text ≠ [] := by simp [htext]
  cases sp with
  | symbol s =>
    refine ⟨hne, nofun, fun hletters => ?_, nofun, nofun, fun x hx => ?_, nofun, halone⟩
    · have hmem : c ∈ s.chars := by rw [show s.chars = c :: cs from htext]; exact List.mem_cons_self
      have hplain := (s.not_alnum c hmem).2
      rw [hletters c hmem] at hplain
      cases hplain
    · cases hx
      exact ⟨rfl, hends⟩
  | keyword k =>
    refine ⟨hne, nofun, fun _ => ⟨k.length_text_le, ?_, fun hnone => absurd rfl (hnone k)⟩,
      fun _ => ⟨k.isAlpha_text, hends⟩, nofun, nofun, nofun, halone⟩
    intro k' hk'
    rw [Keyword.text_injective hk']
    rfl
  | name letters =>
    obtain ⟨-, hlength, halpha, hkeyword⟩ := hlegal
    exact ⟨hne, nofun, fun _ => ⟨hlength, fun k hk => absurd hk (hkeyword k), fun _ => rfl⟩,
      fun _ => ⟨halpha, hends⟩, nofun, nofun, nofun, halone⟩
  | literal l =>
    refine ⟨hne, nofun, fun hletters => ?_, nofun, fun v hv => ?_, nofun, nofun, halone⟩
    · have hdigit := l.isDigit_head hlegal htext
      have halpha := hletters c (by rw [htext]; exact List.mem_cons_self)
      rw [Lexeme.isDigit_eq_false_of_isAlpha halpha] at hdigit
      cases hdigit
    · cases hv
      exact ⟨l, hlegal, rfl, rfl, hends.digit⟩

/-- what is read off a text fits there -/
theorem Lexeme.fits_read {c : Char} (hc : c ≠ ' ') (cs : List Char) (column : Nat) :
    Span.Fits ⟨⟨(read c cs).1.terminal, column⟩, (read c cs).1.text⟩ (read c cs).2 := by
  rcases spelling_of_read c cs with ⟨sp, hlegal, hends, hlexeme⟩ | ⟨hsymbol, hdigit, halpha⟩
  · rw [hlexeme]
    exact sp.fits hlegal hends column
  · have halone := tokensOf_alone hc cs
    rw [read_illegal hsymbol hdigit halpha] at halone ⊢
    refine ⟨by simp, nofun, fun hletters => ?_, nofun, nofun, nofun, fun d hd => ?_, halone⟩
    · have hc := hletters c List.mem_cons_self
      rw [halpha] at hc
      cases hc
    · cases hd
      rcases spoiled_cases hsymbol with hs | ⟨rfl, hs⟩
      · exact Or.inl (by rw [hs])
      · exact Or.inr ⟨rfl, by rw [hs]⟩

/-! ## Tilings -/

/-- a text, whose first character stands at `column`, is made of fitting spans with spaces between them -/
inductive Tiles : (column : Nat) → List Char → List Span → Prop
  | nil {column : Nat} : Tiles column [] []
  | space {column : Nat} {cs : List Char} {spans : List Span} :
      Tiles (column + 1) cs spans → Tiles column (' ' :: cs) spans
  | span {column : Nat} {s : Span} {rest : List Char} {spans : List Span} :
      s.token.column = column → s.Fits rest → Tiles (column + s.text.length) rest spans →
      Tiles column (s.text ++ rest) (s :: spans)

/-- a text is tiled by its tokens -/
theorem tokensFrom_tiles (column : Nat) (cs : List Char) :
    ∃ spans, Tiles column cs spans ∧ tokensFrom column cs = spans.map Span.token ++ [⟨.eof, column + cs.length⟩] := by
  fun_induction tokensFrom column cs with
  | case1 column => exact ⟨[], .nil, rfl⟩
  | case2 column cs ih =>
    obtain ⟨spans, htiles, htokens⟩ := ih
    exact ⟨spans, .space htiles, by rw [htokens, List.length_cons, Nat.add_assoc, Nat.add_comm 1]⟩
  | case3 column c cs hc r ih =>
    obtain ⟨spans, htiles, htokens⟩ := ih
    have hfits := Lexeme.fits_read hc cs column
    have happend := Lexeme.read_append c cs
    have hlength := congrArg List.length happend
    rw [List.length_append] at hlength
    have htiled := Tiles.span (s := ⟨⟨r.1.terminal, column⟩, r.1.text⟩) rfl hfits htiles
    rw [show r.1.text ++ r.2 = c :: cs from happend] at htiled
    refine ⟨_, htiled, ?_⟩
    rw [htokens, ← hlength, Nat.add_assoc]
    rfl

namespace Tiles

variable {column : Nat} {cs : List Char} {spans : List Span}

theorem column_le (h : Tiles column cs spans) : ∀ s ∈ spans, column ≤ s.token.column := by
  induction h with
  | nil => simp
  | space _ ih =>
    intro s hs
    have := ih s hs
    omega
  | span hcolumn _ _ ih =>
    intro s hs
    rcases List.mem_cons.1 hs with rfl | hs
    · exact hcolumn.ge
    · have := ih s hs
      omega

/-- each span is over before the next one begins -/
theorem apart (h : Tiles column cs spans) :
    spans.Pairwise fun s t => s.token.column + s.text.length ≤ t.token.column := by
  induction h with
  | nil => exact List.Pairwise.nil
  | space _ ih => exact ih
  | span hcolumn _ htiles ih =>
    refine List.pairwise_cons.2 ⟨fun t ht => ?_, ih⟩
    rw [hcolumn]
    exact htiles.column_le t ht

/-- a span stands in the text at its column, and fits there -/
theorem stands (h : Tiles column cs spans) :
    ∀ s ∈ spans, ∃ before rest,
      cs = before ++ s.text ++ rest ∧ s.token.column = column + before.length ∧ s.Fits rest := by
  induction h with
  | nil => simp
  | space _ ih =>
    intro s hs
    obtain ⟨before, rest, rfl, hcolumn, hfits⟩ := ih s hs
    refine ⟨' ' :: before, rest, rfl, ?_, hfits⟩
    rw [hcolumn, List.length_cons]
    omega
  | @span column s rest spans hcolumn hfits _ ih =>
    intro t ht
    rcases List.mem_cons.1 ht with rfl | ht
    · exact ⟨[], rest, rfl, hcolumn, hfits⟩
    · obtain ⟨before, rest, rfl, hcolumn, hfits⟩ := ih t ht
      refine ⟨s.text ++ before, rest, by simp, ?_, hfits⟩
      rw [hcolumn, List.length_append, Nat.add_assoc]

/-- a character outside all spans is a space -/
theorem covers (h : Tiles column cs spans) {i : Nat} {c : Char} (hc : cs[i]? = some c) :
    c = ' ' ∨ ∃ s ∈ spans, s.Covers (column + i) := by
  induction h generalizing i with
  | nil => simp at hc
  | space _ ih =>
    cases i with
    | zero =>
      left
      simpa using hc.symm
    | succ i =>
      rw [List.getElem?_cons_succ] at hc
      rcases ih hc with hspace | ⟨s, hs, hcovers⟩
      · exact Or.inl hspace
      · exact Or.inr ⟨s, hs, by rwa [Nat.add_assoc, Nat.add_comm 1] at hcovers⟩
  | @span column s rest spans hcolumn hfits _ ih =>
    by_cases hi : i < s.text.length
    · right
      exact ⟨s, List.mem_cons_self, by rw [hcolumn]; omega, by rw [hcolumn]; omega⟩
    · have hle : s.text.length ≤ i := Nat.le_of_not_lt hi
      rw [List.getElem?_append_right hle] at hc
      rcases ih hc with hspace | ⟨t, ht, hcovers⟩
      · exact Or.inl hspace
      · refine Or.inr ⟨t, List.mem_cons_of_mem s ht, ?_⟩
        rwa [Nat.add_assoc, Nat.add_sub_cancel' hle] at hcovers

end Tiles

/-- **Scanning partitions a line.** Asked again and again, a scanner gives the tokens of its line and then nothing any
more. They are the tokens of some spans and one `eof`, one column past the last character, such that
- the columns of the tokens grow, and no span begins before the last one is over;
- a character that no span covers is a space;
- each span stands on the line where its token says, and fits there: the kind of the token is told by the text, and the
  text could not have gone on. -/
theorem tokensOf_partition (line : String) :
    (∀ n, (Scanner.start line).call n = (tokensOf line)[n]?) ∧
      ∃ spans : List Span,
        tokensOf line = spans.map Span.token ++ [⟨.eof, line.length + 1⟩] ∧
        (tokensOf line).Pairwise (fun t u => t.column < u.column) ∧
        spans.Pairwise (fun s t => s.token.column + s.text.length ≤ t.token.column) ∧
        (∀ i c, line.toList[i]? = some c → c = ' ' ∨ ∃ s ∈ spans, s.Covers (i + 1)) ∧
        ∀ s ∈ spans, 1 ≤ s.token.column ∧ ∃ before rest,
          line.toList = before ++ s.text ++ rest ∧ s.token.column = before.length + 1 ∧ s.Fits rest := by
  obtain ⟨spans, htiles, htokens⟩ := tokensFrom_tiles 1 line.toList
  refine ⟨Scanner.call_start line, spans, ?_, tokensFrom_pairwise 1 line.toList, htiles.apart, fun i c hc => ?_,
    fun s hs => ⟨htiles.column_le s hs, ?_⟩⟩
  · rw [tokensOf, htokens, String.length_toList, Nat.add_comm 1]
  · rw [Nat.add_comm i]
    exact htiles.covers hc
  · obtain ⟨before, rest, hline, hcolumn, hfits⟩ := htiles.stands s hs
    exact ⟨before, rest, hline, by rw [hcolumn, Nat.add_comm], hfits⟩

end LineCalc
