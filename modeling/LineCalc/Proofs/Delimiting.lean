/-
Where lexemes end.

Reading takes the longest lexeme that fits, up to a limit for digits and for letters, so it has to look at what follows.
It never looks further than one character, and a space ends every lexeme: no digit, letter or symbol goes on with one.
`BeginsAlike` says of two texts that they begin with the same character, or the second with a space; this is all that
the text behind a lexeme has to meet for the lexeme to be read again.

Each kind of lexeme has its lemma: `Text.splitSpan_of_alike` for words, `Literal.read_of_alike` for numbers with their
marks, `Symbol.leading?_chars_append` for symbols and `Lexeme.leading?_of_alike` for what begins none.

Result:
- `Lexeme.read_of_alike`: what is read of a text is read again where another text follows it that begins alike.
-/
import LineCalc.Lexeme

namespace LineCalc

/-! ## Where a lexeme ends -/

/-- `rest'` begins as `rest` does, or with a space -/
def BeginsAlike (rest rest' : List Char) : Prop :=
  rest'.head? = rest.head? ∨ rest'.head? = some ' '

/-- what a lexeme asks of the character after it, a space satisfies as well -/
theorem BeginsAlike.forall_head {rest rest' : List Char} (h : BeginsAlike rest rest') {P : Char → Prop}
    (hspace : P ' ') {text : List Char} (hrest : ∀ c ∈ (text ++ rest).head?, P c) :
    ∀ c ∈ (text ++ rest').head?, P c := by
  cases text with
  | nil =>
    intro c hc
    rcases h with h | h
    · exact hrest c (by rwa [List.nil_append, h] at hc)
    · rw [List.nil_append, h] at hc
      cases hc
      exact hspace
  | cons d text => exact hrest

/-- no character but a space comes up where none was -/
theorem BeginsAlike.singleton_prefix {rest rest' : List Char} (h : BeginsAlike rest rest') {c : Char} (hc : c ≠ ' ')
    {text : List Char} (hpre : [c] <+: text ++ rest') : [c] <+: text ++ rest := by
  refine Decidable.byContradiction fun hnot => ?_
  have hhead : ∀ d ∈ (text ++ rest).head?, d ≠ c := by
    rintro d hd rfl
    obtain ⟨ds, hds⟩ := List.head?_eq_some_iff.1 hd
    exact hnot ⟨ds, hds.symm⟩
  obtain ⟨ds, hds⟩ := hpre
  exact h.forall_head hc.symm hhead c (by rw [← hds]; rfl) rfl

theorem BeginsAlike.takeWhile_append {cs rest' : List Char} {p : Char → Bool}
    (h : BeginsAlike (cs.drop (cs.takeWhile p).length) rest') (hspace : p ' ' = false) :
    (cs.takeWhile p ++ rest').takeWhile p = cs.takeWhile p := by
  induction cs with
  | nil =>
    cases rest' with
    | nil => rfl
    | cons d rest' =>
      rcases h with h | h
      · cases h
      · cases h; simp [hspace]
  | cons c cs ih =>
    by_cases hc : p c
    · simp only [List.takeWhile_cons, hc, if_true, List.length_cons, List.drop_succ_cons, List.cons_append] at h ⊢
      rw [ih h]
    · have hstop : ∀ d ∈ ([] ++ c :: cs).head?, p d = false := by simpa using hc
      simp only [List.takeWhile_cons, hc] at h ⊢
      have hrest := h.forall_head hspace hstop
      cases rest' with
      | nil => rfl
      | cons d rest' => simp [hrest d rfl]

theorem Text.splitSpan_of_alike {p : Char → Bool} (hspace : p ' ' = false) (limit : Nat) (cs : List Char)
    {rest' : List Char} (h : BeginsAlike (splitSpan p limit cs).2 rest') :
    splitSpan p limit ((splitSpan p limit cs).1 ++ rest') = ((splitSpan p limit cs).1, rest') := by
  refine splitSpan_append_of_stop (splitSpan_all p limit cs) (length_splitSpan_le p limit cs) fun hlt => ?_
  have hstop : ∀ c ∈ ([] ++ (splitSpan p limit cs).2).head?, p c = false := splitSpan_maximal hlt
  exact h.forall_head hspace hstop

namespace Literal

theorem marked_of_alike (r : Radix) (mark cs : List Char) {rest' : List Char}
    (h : BeginsAlike (marked r mark cs).2 rest') :
    marked r mark ((marked r mark cs).1.digits ++ rest') = ((marked r mark cs).1, rest') := by
  have hspace : r.runsOver ' ' = false := by cases r <;> decide
  have hspan := Text.splitSpan_of_alike hspace maxDigits cs h
  simp only [marked, hspan]

theorem announced?_eq_some {cs mark rest : List Char} {r : Radix} (h : announced? cs = some (r, mark, rest)) :
    ∃ m, mark = ['0', m] ∧ Radix.ofMark? m = some r := by
  unfold announced? at h
  split at h
  next m cs =>
    obtain ⟨r', hr, h⟩ := Option.map_eq_some_iff.1 h
    cases h
    exact ⟨m, rfl, hr⟩
  next => cases h

theorem announced?_cons_eq_none_iff {c : Char} {cs : List Char} :
    announced? (c :: cs) = none ↔ c = '0' → ∀ m ∈ cs.head?, Radix.ofMark? m = none := by
  by_cases hc : c = '0'
  · subst hc
    cases cs with
    | nil => simp [announced?]
    | cons m cs => simp [announced?]
  · have hnone : announced? (c :: cs) = none := by
      unfold announced?
      split
      next heq => exact absurd (List.cons.inj heq).1 hc
      next => rfl
    simp [hnone, hc]

theorem read_of_alike {c : Char} (hc : c.isDigit) (cs : List Char) {rest' : List Char}
    (h : BeginsAlike (read (c :: cs)).2 rest') :
    read ((read (c :: cs)).1.text ++ rest') = ((read (c :: cs)).1, rest') := by
  cases hannounced : announced? (c :: cs) with
  | some a =>
    obtain ⟨r, mark, rest⟩ := a
    obtain ⟨m, rfl, hm⟩ := announced?_eq_some hannounced
    have hread : read (c :: cs) = marked r ['0', m] rest := by simp only [read, hannounced]
    rw [hread] at h ⊢
    have hagain : ∀ us, read (['0', m] ++ us) = marked r ['0', m] us := by
      intro us
      simp [read, announced?, hm]
    have hdigits := marked_of_alike r ['0', m] rest h
    rw [text, List.append_assoc]
    exact (hagain _).trans hdigits
  | none =>
    have hread : read (c :: cs) = marked .decimal [] (c :: cs) := by simp only [read, hannounced]
    rw [hread] at h ⊢
    have hdigits := marked_of_alike .decimal [] (c :: cs) h
    -- no mark of a base comes up behind the first digit
    have happend := marked_append .decimal [] (c :: cs)
    have hne : (marked .decimal [] (c :: cs)).1.text ≠ [] := by rw [← hread]; exact text_read_ne_nil hc cs
    obtain ⟨d, ds, htext⟩ := List.exists_cons_of_ne_nil hne
    rw [htext] at happend
    obtain ⟨rfl, hcs⟩ := List.cons.inj happend
    have hnone : announced? (d :: (ds ++ rest')) = none := by
      rw [announced?_cons_eq_none_iff] at hannounced ⊢
      intro hzero
      refine h.forall_head (P := fun m => Radix.ofMark? m = none) rfl ?_
      rw [show ds ++ _ = cs from hcs]
      exact hannounced hzero
    have hagain : read (d :: (ds ++ rest')) = marked .decimal [] (d :: (ds ++ rest')) := by
      simp only [read, hnone]
    rw [show (marked .decimal [] (d :: cs)).1.digits = d :: ds from htext] at hdigits
    rw [htext]
    exact hagain.trans hdigits

end Literal

namespace Symbol

theorem leading?_chars_append (s : Symbol) (rest : List Char) (hstar : s = .star → ∀ c ∈ rest.head?, c ≠ '*') :
    leading? (s.chars ++ rest) = some s := by
  cases s with
  | star =>
    cases rest with
    | nil => rfl
    | cons c rest =>
      have hc := hstar rfl c rfl
      simp [leading?, all, chars, List.isPrefixOf, Ne.symm hc]
  | _ => simp [leading?, all, chars, List.isPrefixOf]

theorem head_ne_of_leading?_star {cs : List Char} (h : leading? ('*' :: cs) = some .star) : ∀ c ∈ cs.head?, c ≠ '*' := by
  cases cs with
  | nil => simp
  | cons d cs =>
    rintro c hc rfl
    cases hc
    have hlonger := leading?_chars_append .starStar cs nofun
    exact absurd (h.symm.trans hlonger) (by decide)

theorem leading?_eq_none_iff {cs : List Char} : leading? cs = none ↔ ∀ s : Symbol, ¬ s.chars <+: cs := by
  simp only [leading?, List.find?_eq_none, List.isPrefixOf_iff_prefix]
  exact ⟨fun h s => h s s.mem_all, fun h s _ => h s⟩

end Symbol

namespace Lexeme

/-- what an illegal character takes with it and what follows -/
theorem spoiled_append_drop (c : Char) (cs : List Char) :
    spoiled c cs ++ cs.drop (spoiled c cs).length = cs :=
  List.prefix_iff_eq_append.1 (spoiled_isPrefix c cs)

theorem spoiled_of_alike {c : Char} {cs rest' : List Char}
    (h : BeginsAlike (cs.drop (spoiled c cs).length) rest') : spoiled c (spoiled c cs ++ rest') = spoiled c cs := by
  by_cases hdot : c = '.'
  · subst hdot
    have hspoiled : ∀ ds, spoiled '.' ds = ds.takeWhile (· = '.') := fun _ => if_pos rfl
    rw [hspoiled] at h
    rw [hspoiled, hspoiled]
    exact h.takeWhile_append rfl
  · have hspoiled : ∀ ds, spoiled c ds = [] := fun _ => if_neg hdot
    rw [hspoiled, hspoiled]

/-- no symbol begins where one did not before -/
theorem leading?_of_alike {c : Char} {cs rest' : List Char} (h : BeginsAlike (cs.drop (spoiled c cs).length) rest')
    (hnone : Symbol.leading? (c :: cs) = none) : Symbol.leading? (c :: (spoiled c cs ++ rest')) = none := by
  rw [Symbol.leading?_eq_none_iff] at hnone ⊢
  intro s hs
  apply hnone s
  cases s with
  | ellipsis =>
    obtain ⟨rfl, hs⟩ := List.cons_prefix_cons.1 hs
    have hdots : ['.', '.'] <+: spoiled '.' (spoiled '.' cs ++ rest') := by
      obtain ⟨ds, hds⟩ := hs
      rw [← hds]
      simp [spoiled]
    rw [spoiled_of_alike h] at hdots
    exact List.cons_prefix_cons.2 ⟨rfl, hdots.trans (spoiled_isPrefix '.' cs)⟩
  | starStar | lessLess | greaterGreater =>
    obtain ⟨rfl, hs⟩ := List.cons_prefix_cons.1 hs
    have hsecond := h.singleton_prefix (by decide) hs
    rw [spoiled_append_drop] at hsecond
    exact List.cons_prefix_cons.2 ⟨rfl, hsecond⟩
  | _ =>
    obtain ⟨rfl, -⟩ := List.cons_prefix_cons.1 hs
    exact List.cons_prefix_cons.2 ⟨rfl, List.nil_prefix⟩

/-- **A lexeme depends on what follows it only through the next character**, and a space there does as well. -/
theorem read_of_alike (c : Char) {cs us rest' : List Char} (h : BeginsAlike (read c cs).2 rest')
    (hus : (read c cs).1.text ++ rest' = c :: us) : read c us = ((read c cs).1, rest') := by
  by_cases hdigit : c.isDigit
  · have hread : ∀ ds, read c ds = (⟨.number (Literal.read (c :: ds)).1.value, (Literal.read (c :: ds)).1.text⟩,
        (Literal.read (c :: ds)).2) := fun ds => if_pos hdigit
    rw [hread] at h hus
    have hliteral := Literal.read_of_alike hdigit cs h
    rw [hread, ← hus, hread, hliteral]
  by_cases halpha : c.isAlpha
  · have hread : ∀ ds, read c ds = (ofWord (Text.splitSpan Char.isAlpha maxName (c :: ds)).1,
        (Text.splitSpan Char.isAlpha maxName (c :: ds)).2) := by
      intro ds
      rw [read, if_neg hdigit, if_pos halpha]
    rw [hread] at h hus
    rw [text_ofWord] at hus
    have hspan := Text.splitSpan_of_alike (by decide) maxName (c :: cs) h
    rw [hread, ← hus, hread, hspan]
  cases hsymbol : Symbol.leading? (c :: cs) with
  | some s =>
    have hread : ∀ ds, Symbol.leading? (c :: ds) = some s →
        read c ds = (⟨.symbol s, s.chars⟩, (c :: ds).drop s.chars.length) := by
      intro ds hds
      simp only [read, hdigit, halpha, hds]
      rfl
    rw [hread cs hsymbol] at h hus ⊢
    have hstar : s = .star → ∀ d ∈ rest'.head?, d ≠ '*' := by
      rintro rfl
      obtain ⟨rfl, -⟩ := List.cons_prefix_cons.1 (Symbol.chars_prefix_of_leading? hsymbol)
      have hnext : ∀ d ∈ ([] ++ cs).head?, d ≠ '*' := Symbol.head_ne_of_leading?_star hsymbol
      exact h.forall_head (by decide) hnext
    have hagain := Symbol.leading?_chars_append s rest' hstar
    rw [show s.chars ++ rest' = c :: us from hus] at hagain
    rw [hread us hagain, ← show s.chars ++ rest' = c :: us from hus, List.drop_left]
  | none =>
    have hread : ∀ ds, Symbol.leading? (c :: ds) = none →
        read c ds = (⟨.illegal c, c :: spoiled c ds⟩, ds.drop (spoiled c ds).length) := by
      intro ds hds
      simp only [read, hdigit, halpha, hds]
      rfl
    rw [hread cs hsymbol] at h hus ⊢
    have hus : spoiled c cs ++ rest' = us := (List.cons.inj hus).2
    rw [← hus, hread _ (leading?_of_alike h hsymbol), spoiled_of_alike h, List.drop_left]

end Lexeme

end LineCalc
